import Mathlib.Data.List.Perm.Basic

/-! Tables: lists whose entries are known by their position. Entries are added at the end, replaced where they stand, and
    taken out. -/

namespace Table

variable {α : Type*} {l : List α} {j k : Nat} {x y : α}

/-! ### Where an entry comes from -/

/-- An entry of a longer table is an old one or one of those added. -/
theorem getElem?_append_inv {added : List α} (h : (l ++ added)[j]? = some y) :
    l[j]? = some y ∨ (l.length ≤ j ∧ y ∈ added) := by
  rw [List.getElem?_append] at h
  split at h
  · exact Or.inl h
  · rename_i hj
    exact Or.inr ⟨Nat.le_of_not_lt hj, List.mem_of_getElem? h⟩

/-- After an update of position `k` the new entry stands there, and the others are as they were. -/
theorem getElem?_set_inv (h : (l.set k x)[j]? = some y) : (j = k ∧ y = x) ∨ (j ≠ k ∧ l[j]? = some y) := by
  rw [List.getElem?_set] at h
  split at h
  · rename_i hkj
    split at h
    · cases h
      exact Or.inl ⟨hkj.symm, rfl⟩
    · cases h
  · rename_i hkj
    exact Or.inr ⟨Ne.symm hkj, h⟩

/-- An update that keeps the key of the entry keeps the keys of the table. -/
theorem map_set_of_eq {β : Type*} (key : α → β) (h : l[k]? = some x) (hkey : key y = key x) :
    (l.set k y).map key = l.map key := by
  obtain ⟨hk, rfl⟩ := List.getElem?_eq_some_iff.mp h
  have hself := @List.set_getElem_self _ (l.map key) k (by rwa [List.length_map])
  rw [List.getElem_map] at hself
  rw [List.map_set, hkey]
  exact hself

/-! ### Counting -/

variable (p : α → Bool)

theorem countP_concat (x : α) (l : List α) : (l ++ [x]).countP p = l.countP p + (p x).toNat := by
  rw [List.countP_append, List.countP_singleton]
  cases p x <;> rfl

/-- The counted entries other than the one at `k`, and that one. -/
theorem countP_eraseIdx_add (h : l[k]? = some x) : (l.eraseIdx k).countP p + (p x).toNat = l.countP p := by
  obtain ⟨hk, rfl⟩ := List.getElem?_eq_some_iff.mp h
  rw [← (List.getElem_cons_eraseIdx_perm hk).countP_eq p, List.countP_cons]
  cases p l[k] <;> rfl

theorem countP_set_add (y : α) (h : l[k]? = some x) :
    (l.set k y).countP p + (p x).toNat = l.countP p + (p y).toNat := by
  obtain ⟨hk, -⟩ := List.getElem?_eq_some_iff.mp h
  have hset : (l.set k y).countP p = (l.eraseIdx k).countP p + (p y).toNat := by
    rw [(List.set_perm_cons_eraseIdx hk y).countP_eq p, List.countP_cons]
    cases p y <;> rfl
  have herase := countP_eraseIdx_add p h
  omega

/-! ### Weights -/

section Total
variable {w : α → Nat}

/-- The weights of all entries together. -/
def total (w : α → Nat) : List α → Nat
  | [] => 0
  | x :: l => w x + total w l

theorem total_append (l l' : List α) : total w (l ++ l') = total w l + total w l' := by
  induction l with
  | nil => exact (Nat.zero_add _).symm
  | cons x l ih => rw [List.cons_append, total, total, ih, Nat.add_assoc]

theorem total_concat (x : α) (l : List α) : total w (l ++ [x]) = total w l + w x := total_append l [x]

theorem total_perm {l' : List α} (h : l.Perm l') : total w l = total w l' := by
  induction h with
  | nil => rfl
  | cons x _ ih => rw [total, total, ih]
  | swap x y l => rw [total, total, total, total, Nat.add_left_comm]
  | trans _ _ ih ih' => exact ih.trans ih'

/-- The weight of the entry at `k`, and that of the others. -/
theorem total_eraseIdx_add (h : l[k]? = some x) : total w (l.eraseIdx k) + w x = total w l := by
  obtain ⟨hk, rfl⟩ := List.getElem?_eq_some_iff.mp h
  rw [← total_perm (List.getElem_cons_eraseIdx_perm hk), total, Nat.add_comm]

theorem total_set_add (y : α) (h : l[k]? = some x) : total w (l.set k y) + w x = total w l + w y := by
  obtain ⟨hk, -⟩ := List.getElem?_eq_some_iff.mp h
  have herase := total_eraseIdx_add (w := w) h
  rw [total_perm (List.set_perm_cons_eraseIdx hk y), total]
  omega

end Total

end Table
