import Mathlib.Data.Fintype.Card
import Mathlib.Logic.Relation

/-! Depth-first traversal of a graph that marks a vertex before it descends. The marks are threaded through the
    descents, and a vertex that is marked is not entered again. -/

namespace Traversal

variable {V : Type*} (next : V → List V)

/-- There is a path from one vertex to the other. -/
def Reaches : V → V → Prop := Relation.ReflTransGen fun v w => w ∈ next v

/-- What descents into `roots` do to the marks: the roots are marked, what is newly marked was reached from them, and
    whatever it leads to is marked as well. -/
structure Explores (roots : List V) (seen seen' : Finset V) : Prop where
  subset : seen ⊆ seen'
  entered : ∀ r ∈ roots, r ∈ seen'
  closed : ∀ v ∈ seen', v ∉ seen → ∀ w ∈ next v, w ∈ seen'
  reached : ∀ v ∈ seen', v ∉ seen → ∃ r ∈ roots, Reaches next r v

namespace Explores

variable {next} {roots roots' : List V} {seen seen' seen'' : Finset V} {v : V}

theorem nil (seen : Finset V) : Explores next [] seen seen where
  subset := Finset.Subset.refl seen
  entered _ hr := by cases hr
  closed _ hw hnew := absurd hw hnew
  reached _ hw hnew := absurd hw hnew

/-- A vertex that is marked already. -/
theorem marked (h : v ∈ seen) : Explores next [v] seen seen where
  subset := Finset.Subset.refl seen
  entered _ hr := List.mem_singleton.mp hr ▸ h
  closed _ hw hnew := absurd hw hnew
  reached _ hw hnew := absurd hw hnew

/-- Descents one after the other. -/
theorem append (h₁ : Explores next roots seen seen') (h₂ : Explores next roots' seen' seen'') :
    Explores next (roots ++ roots') seen seen'' where
  subset := h₁.subset.trans h₂.subset
  entered r hr := by
    rcases List.mem_append.mp hr with hr | hr
    · exact h₂.subset (h₁.entered r hr)
    · exact h₂.entered r hr
  closed w hw hnew x hx := by
    by_cases hmid : w ∈ seen'
    · exact h₂.subset (h₁.closed w hmid hnew x hx)
    · exact h₂.closed w hw hmid x hx
  reached w hw hnew := by
    by_cases hmid : w ∈ seen'
    · obtain ⟨r, hr, hpath⟩ := h₁.reached w hmid hnew
      exact ⟨r, List.mem_append_left _ hr, hpath⟩
    · obtain ⟨r, hr, hpath⟩ := h₂.reached w hw hmid
      exact ⟨r, List.mem_append_right _ hr, hpath⟩

/-- A vertex is marked, and then come the descents into what it leads to. -/
theorem enter [DecidableEq V] (h : Explores next (next v) (insert v seen) seen') : Explores next [v] seen seen' := by
  have split : ∀ {w : V}, w ∉ seen → w = v ∨ w ∉ insert v seen := by
    intro w hnew
    by_cases hv : w = v
    · exact Or.inl hv
    · exact Or.inr fun hw => (Finset.mem_insert.mp hw).elim hv hnew
  refine ⟨(Finset.subset_insert v seen).trans h.subset, fun r hr => ?_, fun w hw hnew x hx => ?_, fun w hw hnew => ?_⟩
  · rw [List.mem_singleton.mp hr]
    exact h.subset (Finset.mem_insert_self v seen)
  · rcases split hnew with rfl | hnew
    · exact h.entered x hx
    · exact h.closed w hw hnew x hx
  · refine ⟨v, List.mem_singleton_self v, ?_⟩
    rcases split hnew with rfl | hnew
    · exact .refl
    · obtain ⟨r, hr, hpath⟩ := h.reached w hw hnew
      exact .head hr hpath

/-- When nothing was marked before, what is marked is what can be reached. -/
theorem mem_iff (h : Explores next roots ∅ seen) : v ∈ seen ↔ ∃ r ∈ roots, Reaches next r v := by
  constructor
  · intro hv
    exact h.reached v hv (Finset.notMem_empty v)
  · rintro ⟨r, hr, hpath⟩
    induction hpath with
    | refl => exact h.entered r hr
    | tail _ hnext ih => exact h.closed _ ih (Finset.notMem_empty _) _ hnext

end Explores

/-! ### Loops -/

section Loop
variable {S A : Type*} {f : S → A → Option S}

/-- A loop does what its rounds do one after the other. -/
theorem foldlM_compose {R : List A → S → S → Prop} (hnil : ∀ s, R [] s s)
    (happend : ∀ {l l' s s' s''}, R l s s' → R l' s' s'' → R (l ++ l') s s'')
    (hround : ∀ {s a s'}, f s a = some s' → R [a] s s') {l : List A} {s s' : S} (h : l.foldlM f s = some s') :
    R l s s' := by
  induction l generalizing s with
  | nil =>
    cases h
    exact hnil _
  | cons a l ih =>
    rw [List.foldlM_cons] at h
    obtain ⟨s₁, h₁, h₂⟩ := Option.bind_eq_some_iff.mp h
    exact happend (hround h₁) (ih h₂)

/-- A loop whose every round ends and keeps `Q` ends and keeps `Q`. -/
theorem foldlM_total_of_mem {Q : S → Prop} {l : List A} (hround : ∀ s, ∀ a ∈ l, Q s → ∃ s', f s a = some s' ∧ Q s')
    {s : S} (h : Q s) : ∃ s', l.foldlM f s = some s' ∧ Q s' := by
  induction l generalizing s with
  | nil => exact ⟨s, rfl, h⟩
  | cons a l ih =>
    obtain ⟨s₁, h₁, hQ⟩ := hround s a List.mem_cons_self h
    rw [List.foldlM_cons, h₁]
    exact ih (fun s b hb => hround s b (List.mem_cons_of_mem _ hb)) hQ

/-- The same if every round does so whatever it is given. -/
theorem foldlM_total {Q : S → Prop} (hround : ∀ s a, Q s → ∃ s', f s a = some s' ∧ Q s') (l : List A) {s : S} (h : Q s) :
    ∃ s', l.foldlM f s = some s' ∧ Q s' :=
  foldlM_total_of_mem (fun s a _ => hround s a) h

end Loop

/-! ### Depth -/

section Unseen
variable [Fintype V] [DecidableEq V] {seen seen' : Finset V} {v : V}

/-- The number of vertices that are not marked, which bounds the depth of the descent. -/
def unseen (seen : Finset V) : Nat := seenᶜ.card

theorem unseen_le_of_subset (h : seen ⊆ seen') : unseen seen' ≤ unseen seen :=
  Finset.card_le_card (Finset.compl_subset_compl.mpr h)

theorem unseen_insert_lt (h : v ∉ seen) : unseen (insert v seen) < unseen seen := by
  refine Finset.card_lt_card (Finset.ssubset_iff_of_subset ?_ |>.mpr ⟨v, ?_, ?_⟩)
  · exact Finset.compl_subset_compl.mpr (Finset.subset_insert v seen)
  · exact Finset.mem_compl.mpr h
  · rw [Finset.mem_compl, not_not]
    exact Finset.mem_insert_self v seen

theorem unseen_empty : unseen (∅ : Finset V) = Fintype.card V := by
  rw [unseen, Finset.compl_empty, Finset.card_univ]

end Unseen

end Traversal
