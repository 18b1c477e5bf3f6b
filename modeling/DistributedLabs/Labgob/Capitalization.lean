import DistributedLabs.Lib.Traversal
import Mathlib.Algebra.BigOperators.Group.Finset.Basic

/-! The capitalization check of `labgob/labgob.go`. `checkType` marks a type before it descends into the types it is
    made of, in one set of marks for all calls, so that it looks at each type once, also in a graph with cycles. -/

namespace DistributedLabs.Labgob

open Traversal

variable {T : Type}

/-! ### Types -/

structure StructField (T : Type) where
  name : String
  type : T
  deriving DecidableEq, Repr

/-- A type by its `Kind`, with the types it is made of; kinds that `checkType` does not look into are one case. -/
inductive Shape (T : Type) where
  | struct (fields : List (StructField T))
  | slice (elem : T)
  | array (elem : T)
  | ptr (elem : T)
  | map (elem key : T)
  | other
  deriving DecidableEq, Repr

/-- The types that a type is made of. -/
def Shape.parts : Shape T → List T
  | .struct fields => fields.map StructField.type
  | .slice elem | .array elem | .ptr elem => [elem]
  | .map elem key => [elem, key]
  | .other => []

/-- The rune of `utf8.DecodeRuneInString`; an empty string has none and gives `RuneError`. -/
def decodeRune (name : String) : Char := name.toList.headD (Char.ofNat 0xFFFD)

section Check
variable [DecidableEq T] (isUpper : Char → Bool) (types : T → Shape T)

/-- The name of the field does not start with an upper-case letter, by the table of `unicode.IsUpper`. -/
def StructField.lowerCase (f : StructField T) : Bool := isUpper (decodeRune f.name) = false

/-- The number of such fields of a type; only a struct has fields. -/
def Shape.lowerCaseFields : Shape T → Nat
  | .struct fields => fields.countP (StructField.lowerCase isUpper)
  | _ => 0

/-! ### The check -/

/-- The package variables `checked` and `errorCount`. -/
structure Vars (T : Type) where
  checked : Finset T
  errorCount : Nat

/-- `errorCount += 1` for a field that `checkType` warns about. -/
def Vars.warn (s : Vars T) (f : StructField T) : Vars T :=
  if f.lowerCase isUpper then { s with errorCount := s.errorCount + 1 } else s

/-- `checkType`, down to a depth of recursion; `none` when the depth is not enough. -/
def checkType : Nat → T → Vars T → Option (Vars T)
  | 0, _, _ => none
  | depth + 1, t, s =>
    if t ∈ s.checked then some s
    else
      let s := { s with checked := insert t s.checked }
      match types t with
      | .struct fields => fields.foldlM (fun s f => checkType depth f.type (s.warn isUpper f)) s
      | .slice elem | .array elem | .ptr elem => checkType depth elem s
      | .map elem key =>
        match checkType depth elem s with
        | none => none
        | some s => checkType depth key s
      | .other => some s

/-- A sequence of calls of `checkType`. -/
def checkTypes (depth : Nat) (calls : List T) (s : Vars T) : Option (Vars T) :=
  calls.foldlM (fun s t => checkType isUpper types depth t s) s

/-! ### What a call does -/

/-- The types one step away, as the edges of a graph. -/
def parts (t : T) : List T := (types t).parts

/-- The lower-case fields of the types that were checked. -/
def lowerCaseIn (checked : Finset T) : Nat := ∑ t ∈ checked, (types t).lowerCaseFields isUpper

/-- What calls on `roots` do to the variables, if they also warn about `warned` fields of a type that is checked
    already: `errorCount` rises by the lower-case fields of the types that are newly checked. -/
structure Checks (roots : List T) (warned : Nat) (s s' : Vars T) : Prop where
  explores : Explores (parts types) roots s.checked s'.checked
  errors : s'.errorCount + lowerCaseIn isUpper types s.checked =
    s.errorCount + warned + lowerCaseIn isUpper types s'.checked

variable {isUpper types} {s s' s'' : Vars T} {t : T}

omit [DecidableEq T] in
theorem warn_checked (f : StructField T) : (s.warn isUpper f).checked = s.checked := by
  unfold Vars.warn
  split <;> rfl

omit [DecidableEq T] in
theorem warn_errorCount (f : StructField T) :
    (s.warn isUpper f).errorCount = s.errorCount + (f.lowerCase isUpper).toNat := by
  unfold Vars.warn
  split
  · rename_i h
    rw [h]
    rfl
  · rename_i h
    rw [Bool.eq_false_iff.mpr h]
    rfl

namespace Checks

omit [DecidableEq T] in
theorem nil (s : Vars T) : Checks isUpper types [] 0 s s := ⟨.nil _, rfl⟩

omit [DecidableEq T] in
theorem append {roots roots' : List T} {warned warned' : Nat} (h : Checks isUpper types roots warned s s')
    (h' : Checks isUpper types roots' warned' s' s'') :
    Checks isUpper types (roots ++ roots') (warned + warned') s s'' := by
  refine ⟨h.explores.append h'.explores, ?_⟩
  have he := h.errors
  have he' := h'.errors
  omega

/-- The type is marked, its own fields are warned about, and the calls on its parts follow. -/
theorem enter (hnew : t ∉ s.checked)
    (h : Checks isUpper types (parts types t) ((types t).lowerCaseFields isUpper)
      { s with checked := insert t s.checked } s') : Checks isUpper types [t] 0 s s' := by
  refine ⟨h.explores.enter, ?_⟩
  have he := h.errors
  have hsum : lowerCaseIn isUpper types (insert t s.checked) =
      (types t).lowerCaseFields isUpper + lowerCaseIn isUpper types s.checked := Finset.sum_insert hnew
  dsimp only at he
  omega

omit [DecidableEq T] in
/-- The warning about a field comes before the call on its type, and does not touch the marks. -/
theorem field {f : StructField T} (h : Checks isUpper types [f.type] 0 (s.warn isUpper f) s') :
    Checks isUpper types [f.type] ([f].countP (StructField.lowerCase isUpper)) s s' := by
  have hcount : [f].countP (StructField.lowerCase isUpper) = (f.lowerCase isUpper).toNat := by
    rw [List.countP_singleton]
    cases f.lowerCase isUpper <;> rfl
  refine ⟨warn_checked f ▸ h.explores, ?_⟩
  have he := h.errors
  rw [warn_checked, warn_errorCount] at he
  omega

end Checks

theorem checkType_checks {depth : Nat} (h : checkType isUpper types depth t s = some s') :
    Checks isUpper types [t] 0 s s' := by
  induction depth generalizing t s s' with
  | zero => cases h
  | succ depth ih =>
    unfold checkType at h
    split at h
    · rename_i hmem
      cases h
      exact ⟨.marked hmem, rfl⟩
    · rename_i hnew
      apply Checks.enter hnew
      unfold parts
      dsimp only at h
      split at h
      · rename_i fields heq
        rw [heq]
        refine foldlM_compose (R := fun l s s' =>
          Checks isUpper types (l.map StructField.type) (l.countP (StructField.lowerCase isUpper)) s s')
          Checks.nil ?_ (fun hf => (ih hf).field) h
        intro l l' s s' s'' h₁ h₂
        rw [List.map_append, List.countP_append]
        exact h₁.append h₂
      · rename_i elem heq
        rw [heq]
        exact ih h
      · rename_i elem heq
        rw [heq]
        exact ih h
      · rename_i elem heq
        rw [heq]
        exact ih h
      · rename_i elem key heq
        rw [heq]
        split at h
        · cases h
        · rename_i s₁ h₁
          exact (ih h₁).append (ih h)
      · rename_i heq
        rw [heq]
        cases h
        exact Checks.nil _

theorem checkTypes_checks {depth : Nat} {calls : List T} (h : checkTypes isUpper types depth calls s = some s') :
    Checks isUpper types calls 0 s s' :=
  foldlM_compose (R := fun l s s' => Checks isUpper types l 0 s s') Checks.nil Checks.append checkType_checks h

/-! ### Termination -/

section Depth
variable [Fintype T]

theorem checkType_unseen {depth : Nat} (h : checkType isUpper types depth t s = some s') :
    unseen s'.checked ≤ unseen s.checked := unseen_le_of_subset (checkType_checks h).explores.subset

/-- A call needs no more depth than there are types that are not checked. -/
theorem checkType_total {depth : Nat} (h : unseen s.checked < depth) :
    ∃ s', checkType isUpper types depth t s = some s' := by
  induction depth generalizing t s with
  | zero => exact absurd h (Nat.not_lt_zero _)
  | succ depth ih =>
    unfold checkType
    split
    · exact ⟨s, rfl⟩
    · rename_i hnew
      have hdepth : unseen (insert t s.checked) < depth := Nat.lt_of_lt_of_le (unseen_insert_lt hnew) (Nat.le_of_lt_succ h)
      dsimp only
      split
      · rename_i fields _
        -- The call on a field leaves enough depth for the fields after it.
        have hround : ∀ (s : Vars T) (f : StructField T), unseen s.checked < depth →
            ∃ s', checkType isUpper types depth f.type (s.warn isUpper f) = some s' ∧ unseen s'.checked < depth := by
          intro s f hs
          rw [← @warn_checked _ isUpper s f] at hs
          obtain ⟨s', hs'⟩ := @ih _ f.type hs
          exact ⟨s', hs', Nat.lt_of_le_of_lt (checkType_unseen hs') hs⟩
        obtain ⟨s', hs', -⟩ := foldlM_total hround fields (s := { s with checked := insert t s.checked }) hdepth
        exact ⟨s', hs'⟩
      · exact ih hdepth
      · exact ih hdepth
      · exact ih hdepth
      · rename_i elem key _
        obtain ⟨s₁, h₁⟩ := @ih { s with checked := insert t s.checked } elem hdepth
        rw [h₁]
        exact ih (Nat.lt_of_le_of_lt (checkType_unseen h₁) hdepth)
      · exact ⟨_, rfl⟩

end Depth

end Check

/-- For every finite graph of types and every sequence of calls of `checkType`, from any `errorCount`: every call ends at
    a depth of recursion of at most the number of types and one; the types checked are those that can be reached from
    the arguments; and `errorCount` rises by the number of lower-case fields of these types, each type taken once. -/
theorem capitalization_check [DecidableEq T] [Fintype T] (isUpper : Char → Bool) (types : T → Shape T) (calls : List T)
    (errorCount depth : Nat) (hdepth : Fintype.card T < depth) :
    ∃ s, checkTypes isUpper types depth calls ⟨∅, errorCount⟩ = some s ∧
      (∀ t, t ∈ s.checked ↔ ∃ call ∈ calls, Relation.ReflTransGen (fun t u => u ∈ (types t).parts) call t) ∧
      s.errorCount = errorCount + ∑ t ∈ s.checked, (types t).lowerCaseFields isUpper := by
  have hround : ∀ (s : Vars T) (t : T), unseen s.checked < depth →
      ∃ s', checkType isUpper types depth t s = some s' ∧ unseen s'.checked < depth := by
    intro s t hs
    obtain ⟨s', hs'⟩ := @checkType_total _ _ isUpper types s t _ _ hs
    exact ⟨s', hs', Nat.lt_of_le_of_lt (checkType_unseen hs') hs⟩
  obtain ⟨s, hs, -⟩ := foldlM_total hround calls (s := ⟨∅, errorCount⟩) (by rwa [unseen_empty])
  have hchecks := checkTypes_checks hs
  refine ⟨s, hs, fun t => hchecks.explores.mem_iff, ?_⟩
  have he := hchecks.errors
  have hnone : lowerCaseIn isUpper types ∅ = 0 := Finset.sum_empty
  unfold lowerCaseIn at he hnone
  dsimp only at he
  omega

/-- The types of `TestCapital`: `[]map[*T4]int`, which is encoded, `*[]map[T4]int`, which is decoded into, and what
    they are made of. -/
def capitalTypes : Fin 8 → Shape (Fin 8)
  | 0 => .slice 1
  | 1 => .map 4 2
  | 2 => .ptr 3
  | 3 => .struct [⟨"Yes", 4⟩, ⟨"no", 4⟩]
  | 4 => .other
  | 5 => .ptr 6
  | 6 => .slice 7
  | 7 => .map 4 3

theorem capitalization_check_capital : ∃ s : Vars (Fin 8),
    checkTypes Char.isUpper capitalTypes 9 [0, 5] ⟨∅, 0⟩ = some s ∧ s.errorCount = 1 ∧
    s.errorCount = 0 + ∑ t ∈ s.checked, (capitalTypes t).lowerCaseFields Char.isUpper := by
  obtain ⟨s, hs, -, hcount⟩ := capitalization_check Char.isUpper capitalTypes [0, 5] 0 9 (by decide)
  have hone : (checkTypes Char.isUpper capitalTypes 9 [0, 5] ⟨∅, 0⟩).map Vars.errorCount = some 1 := by decide
  rw [hs] at hone
  exact ⟨s, hs, Option.some.inj hone, hcount⟩

end DistributedLabs.Labgob
