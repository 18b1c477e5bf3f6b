import Mathlib.Logic.Relation

/-! Runs of a transition system whose steps are a partial function of a state and an action. Every step of a run
    meets a condition on its action and the state before it. -/

namespace Run

variable {S A : Type*} (step : S → A → Option S)

/-- One step that meets `P`. -/
def Next (P : S → A → Prop) (s s' : S) : Prop := ∃ a, P s a ∧ step s a = some s'

/-- A run whose steps all meet `P`. -/
def Steps (P : S → A → Prop) : S → S → Prop := Relation.ReflTransGen (Next step P)

variable {step} {P : S → A → Prop} {s s' : S}

/-- What every step keeps that starts in a state the run can reach, a run keeps. -/
theorem Steps.keeps_reached {I : S → Prop}
    (hstep : ∀ s₁ s₂ a, Steps step P s s₁ → I s₁ → P s₁ a → step s₁ a = some s₂ → I s₂)
    (hs : Steps step P s s') (h : I s) : I s' := by
  induction hs with
  | refl => exact h
  | tail hs hn ih =>
    obtain ⟨a, ha, hn⟩ := hn
    exact hstep _ _ a hs ih ha hn

/-- What every step keeps, a run keeps. -/
theorem Steps.keeps {I : S → Prop} (hstep : ∀ s s' a, I s → P s a → step s a = some s' → I s')
    (hs : Steps step P s s') (h : I s) : I s' :=
  Steps.keeps_reached (fun s₁ s₂ a _ => hstep s₁ s₂ a) hs h

/-- A run that meets `P` meets `Q` too, if every step does that starts in a state the run can reach. -/
theorem Steps.mono_reached {Q : S → A → Prop}
    (hstep : ∀ s₁ s₂ a, Steps step P s s₁ → P s₁ a → step s₁ a = some s₂ → Q s₁ a) (hs : Steps step P s s') :
    Steps step Q s s' := by
  induction hs with
  | refl => exact .refl
  | tail hs hn ih =>
    obtain ⟨a, ha, hn⟩ := hn
    exact .tail ih ⟨a, hstep _ _ a hs ha hn, hn⟩

/-! ### Concrete runs -/

section Exec
variable (step P) [∀ s a, Decidable (P s a)]

/-- Run a list of actions, each of which must be possible and meet `P`. -/
def exec (s : S) : List A → Option S
  | [] => some s
  | a :: as =>
    if P s a then
      match step s a with
      | none => none
      | some s' => exec s' as
    else none

variable {step P} in
theorem exec_steps {as : List A} (h : exec step P s as = some s') : Steps step P s s' := by
  induction as generalizing s with
  | nil =>
    cases h
    exact .refl
  | cons a as ih =>
    unfold exec at h
    split at h
    · rename_i ha
      split at h
      · cases h
      · rename_i s₁ hs
        exact .head ⟨a, ha, hs⟩ (ih h)
    · cases h

/-- A property of the last state of a concrete run, checked by running it. -/
theorem exec_any (s : S) (as : List A) (p : S → Bool) (h : (exec step P s as).any p = true) :
    ∃ s', exec step P s as = some s' ∧ p s' = true := by
  obtain ⟨s', hs, hp⟩ := (Option.any_eq_true _ _).mp h
  exact ⟨s', hs, hp⟩

variable {step P} in
/-- If every step lowers a bound, a run is no longer than the bound at its start. -/
theorem exec_length_le {I : Nat → S → Prop}
    (hstep : ∀ m s s' a, I m s → P s a → step s a = some s' → ∃ m' < m, I m' s') {m : Nat} (h : I m s) {as : List A}
    (hexec : exec step P s as = some s') : as.length ≤ m := by
  induction as generalizing s m with
  | nil => exact Nat.zero_le m
  | cons a as ih =>
    unfold exec at hexec
    split at hexec
    · rename_i ha
      split at hexec
      · cases hexec
      · rename_i s₁ hs
        obtain ⟨m', hlt, h'⟩ := hstep m s s₁ a h ha hs
        exact Nat.lt_of_le_of_lt (ih h' hexec) hlt
    · cases hexec

end Exec

end Run
