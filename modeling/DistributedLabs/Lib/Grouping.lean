import Mathlib.Data.List.Dedup
import Mathlib.Data.List.Nodup
import Mathlib.Data.List.Perm.Basic
import Mathlib.Data.List.TakeWhile
import Mathlib.Order.Basic

/-! Grouping by key. A grouping of a list has one record for each key of the list, made of the key and all values
    that the list holds for it. A sorted list is grouped by its runs, and the groupings of the parts of a list that
    is split by key make up one of the whole. -/

namespace Grouping

variable {α K V W : Type*} [DecidableEq K] (key : α → K) (value : α → V)

/-- The values of a key, in the order of the list. -/
def valuesOf (k : K) (l : List α) : List V := (l.filter fun x => key x = k).map value

/-- `r` has one record for each key of `l`, with what `f` makes of its values. -/
structure Groups (f : K → List V → W) (l : List α) (r : List (K × W)) : Prop where
  nodup : (r.map Prod.fst).Nodup
  mem : ∀ k w, (k, w) ∈ r ↔ (∃ x ∈ l, key x = k) ∧ w = f k (valuesOf key value k l)

variable {key value} {f : K → List V → W} {l l' : List α} {r r' : List (K × W)}

theorem valuesOf_perm (h : l.Perm l') (k : K) : (valuesOf key value k l).Perm (valuesOf key value k l') :=
  (h.filter _).map value

/-- Two groupings of a list differ in their order only. -/
theorem Groups.unique (h : Groups key value f l r) (h' : Groups key value f l r') : r.Perm r' := by
  refine (List.perm_ext_iff_of_nodup h.nodup.of_map h'.nodup.of_map).mpr fun x => ?_
  obtain ⟨k, w⟩ := x
  rw [h.mem, h'.mem]

/-- If `f` does not look at the order of the values, a grouping of a list is one of each list with its elements. -/
theorem Groups.perm (hf : ∀ k vs vs', vs.Perm vs' → f k vs = f k vs') (h : Groups key value f l r) (hl : l.Perm l') :
    Groups key value f l' r := by
  refine ⟨h.nodup, fun k w => ?_⟩
  rw [h.mem, hf k _ _ (valuesOf_perm hl k)]
  simp only [hl.mem_iff]

/-! ### Splitting by key -/

section Split
variable {n : ℕ} {bucket : K → ℕ} {rs : ℕ → List (K × W)}

theorem valuesOf_filter {k : K} {j : ℕ} (hk : bucket k = j) :
    valuesOf key value k (l.filter fun x => bucket (key x) = j) = valuesOf key value k l := by
  unfold valuesOf
  rw [List.filter_filter]
  congr 1
  refine List.filter_congr fun x _ => ?_
  by_cases hx : key x = k
  · simp [hx, hk]
  · simp [hx]

theorem Groups.bucket_eq {j : ℕ} (h : Groups key value f (l.filter fun x => bucket (key x) = j) r) {k : K} {w : W}
    (hm : (k, w) ∈ r) : bucket k = j := by
  obtain ⟨⟨x, hx, rfl⟩, -⟩ := (h.mem k w).mp hm
  simpa using (List.mem_filter.mp hx).2

variable (bucket) in
theorem Groups.split (hbucket : ∀ k, bucket k < n)
    (h : ∀ j < n, Groups key value f (l.filter fun x => bucket (key x) = j) (rs j)) :
    Groups key value f l ((List.range n).flatMap rs) := by
  refine ⟨?_, fun k w => ?_⟩
  · -- Each part has no key twice, and the parts have no key in common.
    rw [List.map_flatMap, List.nodup_flatMap]
    refine ⟨fun j hj => (h j (List.mem_range.mp hj)).nodup, ?_⟩
    refine List.nodup_range.imp_of_mem fun {i j} hi hj hij => ?_
    intro k hki hkj
    obtain ⟨⟨k₁, w₁⟩, hm₁, rfl⟩ := List.mem_map.mp hki
    obtain ⟨⟨k₂, w₂⟩, hm₂, heq⟩ := List.mem_map.mp hkj
    have heq : k₂ = k₁ := heq
    have hi' := (h i (List.mem_range.mp hi)).bucket_eq hm₁
    have hj' := (h j (List.mem_range.mp hj)).bucket_eq hm₂
    rw [heq, hi'] at hj'
    exact hij hj'
  · rw [List.mem_flatMap]
    constructor
    · rintro ⟨j, hj, hm⟩
      have hg := h j (List.mem_range.mp hj)
      obtain ⟨⟨x, hx, hxk⟩, hw⟩ := (hg.mem k w).mp hm
      rw [valuesOf_filter (hg.bucket_eq hm)] at hw
      exact ⟨⟨x, (List.mem_filter.mp hx).1, hxk⟩, hw⟩
    · rintro ⟨⟨x, hx, hxk⟩, hw⟩
      refine ⟨bucket k, List.mem_range.mpr (hbucket k), ?_⟩
      refine ((h _ (hbucket k)).mem k w).mpr ⟨⟨x, List.mem_filter.mpr ⟨hx, by simp [hxk]⟩, hxk⟩, ?_⟩
      rw [valuesOf_filter rfl]
      exact hw

end Split

/-! ### Runs of a sorted list -/

section Runs
variable (key value f)

/-- The runs of equal keys of a list, from the left. -/
def runs (l : List α) : List (K × W) :=
  match l with
  | [] => []
  | x :: l =>
    (key x, f (key x) (value x :: (l.takeWhile fun y => key y = key x).map value)) ::
      runs (l.dropWhile fun y => key y = key x)
termination_by l.length
decreasing_by
  simp only [List.length_cons]
  exact Nat.lt_succ_of_le (List.dropWhile_sublist _).length_le

end Runs

theorem valuesOf_rest {x : α} {l : List α} {k : K} (hk : k ≠ key x) :
    valuesOf key value k (x :: l) = valuesOf key value k (l.dropWhile fun y => key y = key x) := by
  have hsplit := List.takeWhile_append_dropWhile (p := fun y => decide (key y = key x)) (l := l)
  have hrun : (l.takeWhile fun y => key y = key x).filter (fun y => key y = k) = [] := by
    refine List.filter_eq_nil_iff.mpr fun y hy => ?_
    have hy := List.mem_takeWhile_imp hy
    simp only [decide_eq_true_eq] at hy ⊢
    rw [hy]
    exact hk.symm
  unfold valuesOf
  rw [List.filter_cons_of_neg (by simpa using hk.symm)]
  conv_lhs => rw [← hsplit]
  rw [List.filter_append, hrun, List.nil_append]

section Sorted
variable [PartialOrder K]

/-- Behind the first run of a sorted list its key does not occur any more. -/
theorem ne_of_mem_dropWhile {x : α} {l : List α} (h : (x :: l).Pairwise fun a b => key a ≤ key b) {y : α}
    (hy : y ∈ l.dropWhile fun y => key y = key x) : key y ≠ key x := by
  rw [List.pairwise_cons] at h
  obtain ⟨hx, hl⟩ := h
  induction l with
  | nil => cases hy
  | cons z l ih =>
    rw [List.pairwise_cons] at hl
    rw [List.dropWhile_cons] at hy
    split at hy
    · exact ih hy (fun w hw => hx w (List.mem_cons_of_mem _ hw)) hl.2
    · rename_i hz
      have hlt : key x < key z := lt_of_le_of_ne (hx z List.mem_cons_self) fun heq => hz (by simp [heq])
      rcases List.mem_cons.mp hy with rfl | hy
      · exact hlt.ne'
      · exact (lt_of_lt_of_le hlt (hl.1 y hy)).ne'

theorem valuesOf_run {x : α} {l : List α} (h : (x :: l).Pairwise fun a b => key a ≤ key b) :
    valuesOf key value (key x) (x :: l) = value x :: (l.takeWhile fun y => key y = key x).map value := by
  have hsplit := List.takeWhile_append_dropWhile (p := fun y => decide (key y = key x)) (l := l)
  have hrun : (l.takeWhile fun y => key y = key x).filter (fun y => key y = key x) =
      l.takeWhile fun y => key y = key x :=
    List.filter_eq_self.mpr fun y hy => List.mem_takeWhile_imp (p := fun y => decide (key y = key x)) hy
  have hrest : (l.dropWhile fun y => key y = key x).filter (fun y => key y = key x) = [] :=
    List.filter_eq_nil_iff.mpr fun y hy => by simpa using ne_of_mem_dropWhile h hy
  have hfilter : l.filter (fun y => key y = key x) = l.takeWhile fun y => key y = key x := by
    conv_lhs => rw [← hsplit]
    rw [List.filter_append, hrun, hrest, List.append_nil]
  unfold valuesOf
  rw [List.filter_cons_of_pos (by simp), hfilter, List.map_cons]

/-- The runs of a sorted list are a grouping. -/
theorem groups_runs {l : List α} (h : l.Pairwise fun a b => key a ≤ key b) :
    Groups key value f l (runs key value f l) := by
  induction l using runs.induct key with
  | case1 =>
    rw [runs]
    exact ⟨List.nodup_nil, fun k w => by simp⟩
  | case2 x l ih =>
    have hrest := ih ((List.pairwise_cons.mp h).2.sublist (List.dropWhile_sublist _))
    rw [runs, ← valuesOf_run h]
    refine ⟨?_, fun k w => ?_⟩
    · rw [List.map_cons, List.nodup_cons]
      refine ⟨fun hmem => ?_, hrest.nodup⟩
      obtain ⟨⟨k, w⟩, hm, heq⟩ := List.mem_map.mp hmem
      obtain ⟨⟨y, hy, hyk⟩, -⟩ := (hrest.mem k w).mp hm
      exact ne_of_mem_dropWhile h hy (hyk.trans heq)
    · rw [List.mem_cons, Prod.mk.injEq, hrest.mem]
      constructor
      · rintro (⟨rfl, rfl⟩ | ⟨⟨y, hy, rfl⟩, hw⟩)
        · exact ⟨⟨x, List.mem_cons_self, rfl⟩, rfl⟩
        · rw [valuesOf_rest (ne_of_mem_dropWhile h hy)]
          exact ⟨⟨y, List.mem_cons_of_mem _ ((List.dropWhile_sublist _).subset hy), rfl⟩, hw⟩
      · rintro ⟨⟨y, hy, rfl⟩, hw⟩
        by_cases hyx : key y = key x
        · rw [hyx] at hw
          exact Or.inl ⟨hyx, hw⟩
        · -- An element with another key stands behind the first run.
          rw [valuesOf_rest hyx] at hw
          refine Or.inr ⟨⟨y, ?_, rfl⟩, hw⟩
          have hyl : y ∈ l := (List.mem_cons.mp hy).resolve_left fun heq => hyx (congrArg key heq)
          rw [← List.takeWhile_append_dropWhile (p := fun z => decide (key z = key x)) (l := l), List.mem_append] at hyl
          exact hyl.resolve_left fun hrun => hyx (by simpa using List.mem_takeWhile_imp hrun)

end Sorted

end Grouping
