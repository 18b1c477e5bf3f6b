import DistributedLabs.Lib.Run
import Mathlib.Order.Basic

/-! Infinite runs of a transition system, with the time of each step, and weakly fair ones among them. At a time at
    which no action is taken the state stays as it is, so that a finite run is one of them too. -/

namespace Run

variable {S A : Type*}

structure Behavior (step : S → A → Option S) where
  state : Nat → S
  act : Nat → Option A
  rest : ∀ n, act n = none → state (n + 1) = state n
  moves : ∀ n a, act n = some a → step (state n) a = some (state (n + 1))

variable {step : S → A → Option S}

namespace Behavior

variable (b : Behavior step)

theorem steps {m n : Nat} (h : m ≤ n) : Steps step (fun _ _ => True) (b.state m) (b.state n) := by
  induction h with
  | refl => exact .refl
  | @step n _ ih =>
    cases hact : b.act n with
    | none =>
      rw [b.rest n hact]
      exact ih
    | some a => exact ih.tail ⟨a, trivial, b.moves n a hact⟩

/-- What becomes true does so in a step. -/
theorem becomes {Q : S → Prop} {m n : Nat} (hmn : m ≤ n) (hm : ¬ Q (b.state m)) (hn : Q (b.state n)) :
    ∃ k, m ≤ k ∧ k < n ∧ ∃ a, b.act k = some a ∧ ¬ Q (b.state k) ∧ Q (b.state (k + 1)) := by
  induction hmn with
  | refl => exact absurd hn hm
  | @step n hmn ih =>
    by_cases hQ : Q (b.state n)
    · obtain ⟨k, hmk, hkn, hstep⟩ := ih hQ
      exact ⟨k, hmk, Nat.lt_succ_of_lt hkn, hstep⟩
    · cases hact : b.act n with
      | none =>
        rw [b.rest n hact] at hn
        exact absurd hn hQ
      | some a => exact ⟨n, hmn, Nat.lt_succ_self n, a, hact, hQ, hn⟩

/-- Actions that bring about what excludes them, for good, happen at most once. -/
theorem at_most_once (p : A → Prop) (After : S → Prop)
    (hkeep : ∀ m n, m ≤ n → After (b.state m) → After (b.state n))
    (hbefore : ∀ n a, b.act n = some a → p a → ¬ After (b.state n))
    (hafter : ∀ n a, b.act n = some a → p a → After (b.state (n + 1))) {n n' : Nat} {a a' : A} (hn : b.act n = some a)
    (ha : p a) (hn' : b.act n' = some a') (ha' : p a') : n = n' := by
  have hle : ∀ n n' a a', b.act n = some a → p a → b.act n' = some a' → p a' → n' ≤ n := by
    intro n n' a a' hn ha hn' ha'
    by_contra hlt
    exact hbefore n' a' hn' ha' (hkeep (n + 1) n' (by omega) (hafter n a hn ha))
  exact Nat.le_antisymm (hle n' n a' a hn' ha' hn ha) (hle n n' a a' hn ha hn' ha')

/-! ### Fairness -/

/-- An action that stays possible is taken. -/
def WeakFair (a : A) : Prop := ∀ n, (∀ m, n ≤ m → (step (b.state m) a).isSome) → ∃ m, n ≤ m ∧ b.act m = some a

variable {b}

/-- A fair action that brings about `Q`, and that is possible as long as `Q` does not hold, leads to it. -/
theorem WeakFair.leadsTo {a : A} (hfair : b.WeakFair a) {Q : S → Prop} {n : Nat}
    (hpossible : ∀ m, n ≤ m → Q (b.state m) ∨ (step (b.state m) a).isSome)
    (hgoal : ∀ m, n ≤ m → b.act m = some a → Q (b.state (m + 1))) : ∃ m, n ≤ m ∧ Q (b.state m) := by
  by_contra hnever
  obtain ⟨m, hm, hact⟩ := hfair n fun m hm => (hpossible m hm).resolve_left fun hQ => hnever ⟨m, hm, hQ⟩
  exact hnever ⟨m + 1, Nat.le_succ_of_le hm, hgoal m hm hact⟩

/-- An action that is impossible from some time on is taken fairly. -/
theorem weakFair_of_impossible {a : A} {N : Nat} (h : ∀ n, N ≤ n → step (b.state n) a = none) : b.WeakFair a := by
  intro n hpossible
  have hsome := hpossible (n + N) (Nat.le_add_right n N)
  rw [h _ (Nat.le_add_left N n)] at hsome
  cases hsome

end Behavior

/-! ### Finite runs -/

variable (step) in
/-- The state after the first `n` actions of a list. -/
def after : S → List A → Nat → S
  | s, a :: as, n + 1 => ((step s a).map fun s' => after s' as n).getD s
  | s, _, _ => s

variable (step) in
/-- All actions of a list are possible, one after the other. -/
def Possible : S → List A → Bool
  | _, [] => true
  | s, a :: as => (step s a).any fun s' => Possible s' as

theorem after_of_length_le {s : S} {as : List A} (h : Possible step s as = true) {n : Nat} (hn : as.length ≤ n) :
    after step s as n = after step s as as.length := by
  induction as generalizing s n with
  | nil => cases n <;> rfl
  | cons a as ih =>
    obtain ⟨s', hs, hpos⟩ := (Option.any_eq_true _ _).mp h
    cases n with
    | zero => cases hn
    | succ n =>
      simp only [after, List.length_cons, hs, Option.map_some, Option.getD_some]
      exact ih hpos (Nat.le_of_succ_le_succ hn)

theorem step_after {s : S} {as : List A} (h : Possible step s as = true) {n : Nat} {a : A} (ha : as[n]? = some a) :
    step (after step s as n) a = some (after step s as (n + 1)) := by
  induction as generalizing s n with
  | nil => cases ha
  | cons a' as ih =>
    obtain ⟨s', hs, hpos⟩ := (Option.any_eq_true _ _).mp h
    cases n with
    | zero =>
      cases ha
      cases as <;> simp [after, hs]
    | succ n =>
      simp only [after, hs, Option.map_some, Option.getD_some]
      exact ih hpos ha

/-- The run that takes the actions of a list and then rests. -/
def Behavior.ofList (s : S) (as : List A) (h : Possible step s as = true) : Behavior step where
  state := after step s as
  act n := as[n]?
  rest n hn := by
    have hlen := List.getElem?_eq_none_iff.mp hn
    rw [after_of_length_le h hlen, after_of_length_le h (Nat.le_succ_of_le hlen)]
  moves _ _ ha := step_after h ha

end Run
