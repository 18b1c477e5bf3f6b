import Mathlib.Data.List.Basic

/-! Doubly linked lists in a heap of cells. A cell that is unlinked keeps its own two pointers, so it can be linked in again
    where it was, as long as its neighbours have come back. -/

namespace LinkedList

/-- A cell with what it holds and its two pointers; addresses are positions in the heap. -/
structure Cell (D : Type*) where
  data : D
  next : Option Nat
  prev : Option Nat
  deriving DecidableEq, Repr

variable {D : Type*}

/-! ### Reading and writing -/

/-- `p.next = q` -/
def setNext (h : List (Cell D)) (p : Nat) (q : Option Nat) : List (Cell D) := h.modify p fun c => { c with next := q }

/-- `p.prev = q` -/
def setPrev (h : List (Cell D)) (p : Nat) (q : Option Nat) : List (Cell D) := h.modify p fun c => { c with prev := q }

def next (h : List (Cell D)) (p : Nat) : Option Nat := (h[p]?).bind Cell.next

def prev (h : List (Cell D)) (p : Nat) : Option Nat := (h[p]?).bind Cell.prev

variable {h : List (Cell D)} {p k : Nat} {q : Option Nat}

theorem getElem?_setNext : (setNext h p q)[k]? = (h[k]?).map fun c => if p = k then { c with next := q } else c := by
  unfold setNext
  rw [List.getElem?_modify]
  split <;> simp

theorem getElem?_setPrev : (setPrev h p q)[k]? = (h[k]?).map fun c => if p = k then { c with prev := q } else c := by
  unfold setPrev
  rw [List.getElem?_modify]
  split <;> simp

@[simp] theorem length_setNext : (setNext h p q).length = h.length := List.length_modify ..

@[simp] theorem length_setPrev : (setPrev h p q).length = h.length := List.length_modify ..

@[simp] theorem map_data_setNext : (setNext h p q).map Cell.data = h.map Cell.data := by
  refine List.ext_getElem? fun k => ?_
  rw [List.getElem?_map, List.getElem?_map, getElem?_setNext, Option.map_map]
  congr 1
  funext c
  dsimp only [Function.comp]
  split <;> rfl

@[simp] theorem map_data_setPrev : (setPrev h p q).map Cell.data = h.map Cell.data := by
  refine List.ext_getElem? fun k => ?_
  rw [List.getElem?_map, List.getElem?_map, getElem?_setPrev, Option.map_map]
  congr 1
  funext c
  dsimp only [Function.comp]
  split <;> rfl

theorem next_setNext_self (hp : p < h.length) : next (setNext h p q) p = q := by
  unfold next
  rw [getElem?_setNext, List.getElem?_eq_getElem hp]
  simp

theorem next_setNext_ne (hk : p ≠ k) : next (setNext h p q) k = next h k := by
  unfold next
  rw [getElem?_setNext]
  simp [hk]

theorem prev_setPrev_self (hp : p < h.length) : prev (setPrev h p q) p = q := by
  unfold prev
  rw [getElem?_setPrev, List.getElem?_eq_getElem hp]
  simp

theorem prev_setPrev_ne (hk : p ≠ k) : prev (setPrev h p q) k = prev h k := by
  unfold prev
  rw [getElem?_setPrev]
  simp [hk]

@[simp] theorem next_setPrev : next (setPrev h p q) k = next h k := by
  unfold next
  rw [getElem?_setPrev]
  cases h[k]? with
  | none => rfl
  | some c =>
    dsimp only [Option.map_some, Option.bind_some]
    split <;> rfl

@[simp] theorem prev_setNext : prev (setNext h p q) k = prev h k := by
  unfold prev
  rw [getElem?_setNext]
  cases h[k]? with
  | none => rfl
  | some c =>
    dsimp only [Option.map_some, Option.bind_some]
    split <;> rfl

theorem lt_of_next {r : Nat} (hp : next h p = some r) : p < h.length := by
  obtain ⟨c, hc, -⟩ := Option.bind_eq_some_iff.mp hp
  exact (List.getElem?_eq_some_iff.mp hc).1

theorem lt_of_prev {r : Nat} (hp : prev h p = some r) : p < h.length := by
  obtain ⟨c, hc, -⟩ := Option.bind_eq_some_iff.mp hp
  exact (List.getElem?_eq_some_iff.mp hc).1

/-- Two heaps with the same data and pointers are the same. -/
theorem heap_ext {h h' : List (Cell D)} (hdata : h'.map Cell.data = h.map Cell.data)
    (hnext : ∀ k, next h' k = next h k) (hprev : ∀ k, prev h' k = prev h k) : h' = h := by
  have hlen : h'.length = h.length := by
    have := congrArg List.length hdata
    rwa [List.length_map, List.length_map] at this
  refine List.ext_getElem hlen fun k hk hk' => ?_
  have hd := congrArg (fun l => l[k]?) hdata
  have hn := hnext k
  have hp := hprev k
  unfold next at hn
  unfold prev at hp
  rw [List.getElem?_eq_getElem hk, List.getElem?_eq_getElem hk'] at hn hp
  simp only [List.getElem?_map, List.getElem?_eq_getElem hk, List.getElem?_eq_getElem hk', Option.map_some,
    Option.some.injEq] at hd
  generalize h'[k] = c at hd hn hp
  generalize h[k] = c' at hd hn hp
  cases c
  cases c'
  simp only [Option.bind_some] at hn hp
  dsimp only at hd
  rw [hd, hn, hp]

/-! ### Unlinking and linking in again -/

/-- The neighbours of a cell are made to point past it. The first cell of a list, which has none before it, is never
    unlinked. -/
def unlink (h : List (Cell D)) (p : Nat) : Option (List (Cell D)) :=
  match prev h p with
  | none => none
  | some before =>
    match next h p with
    | none => some (setNext h before none)
    | some after => some (setPrev (setNext h before (some after)) after (some before))

/-- The neighbours of a cell are made to point to it. -/
def relink (h : List (Cell D)) (p : Nat) : Option (List (Cell D)) :=
  match prev h p with
  | none => none
  | some before =>
    match next h p with
    | none => some (setNext h before (some p))
    | some after => some (setPrev (setNext h before (some p)) after (some p))

/-- The cell stands between its neighbours. -/
structure Linked (h : List (Cell D)) (p before : Nat) : Prop where
  prev_eq : prev h p = some before
  next_eq : next h before = some p
  after : ∀ after, next h p = some after → prev h after = some p ∧ p ≠ after
  ne : p ≠ before

theorem Linked.unlink_some {before : Nat} (hl : Linked h p before) : ∃ h', unlink h p = some h' := by
  unfold unlink
  rw [hl.prev_eq]
  dsimp only
  split
  · exact ⟨_, rfl⟩
  · exact ⟨_, rfl⟩

/-- What an unlinked cell leaves of the heap. -/
structure Unlinked (h h' : List (Cell D)) (p before : Nat) : Prop where
  data : h'.map Cell.data = h.map Cell.data
  next_before : next h' before = next h p
  next_ne : ∀ k, k ≠ before → next h' k = next h k
  prev_after : ∀ after, next h p = some after → prev h' after = some before
  prev_ne : ∀ k, next h p ≠ some k → prev h' k = prev h k

theorem Linked.unlinked {before : Nat} {h' : List (Cell D)} (hl : Linked h p before) (hu : unlink h p = some h') :
    Unlinked h h' p before := by
  have hbefore : before < h.length := lt_of_next hl.next_eq
  unfold unlink at hu
  rw [hl.prev_eq] at hu
  dsimp only at hu
  split at hu
  · rename_i hnone
    cases hu
    refine ⟨map_data_setNext, ?_, fun k hk => next_setNext_ne (Ne.symm hk), fun after ha => ?_, fun k _ => prev_setNext⟩
    · rw [next_setNext_self hbefore, hnone]
    · rw [hnone] at ha
      cases ha
  · rename_i after hafter
    cases hu
    have hlt : after < (setNext h before (some after)).length := by
      rw [length_setNext]
      exact lt_of_prev (hl.after after hafter).1
    refine ⟨?_, ?_, fun k hk => ?_, fun after' ha => ?_, fun k hk => ?_⟩
    · rw [map_data_setPrev, map_data_setNext]
    · rw [next_setPrev, next_setNext_self hbefore, hafter]
    · rw [next_setPrev, next_setNext_ne (Ne.symm hk)]
    · rw [hafter] at ha
      cases ha
      exact prev_setPrev_self hlt
    · rw [prev_setPrev_ne (fun heq => hk (hafter.trans (congrArg some heq))), prev_setNext]

/-- A cell that was unlinked is linked in again where it was. -/
theorem Linked.relink_unlink {before : Nat} {h' : List (Cell D)} (hl : Linked h p before) (hu : unlink h p = some h') :
    relink h' p = some h := by
  have hun := hl.unlinked hu
  have hbefore' : before < h'.length := by
    have hlen := congrArg List.length hun.data
    rw [List.length_map, List.length_map] at hlen
    rw [hlen]
    exact lt_of_next hl.next_eq
  have hnext : next h' p = next h p := hun.next_ne p hl.ne
  have hprev : prev h' p = some before := by
    rw [hun.prev_ne p fun ha => (hl.after p ha).2 rfl, hl.prev_eq]
  unfold relink
  rw [hprev, hnext]
  dsimp only
  split
  · rename_i hnone
    refine congrArg some (heap_ext ?_ (fun k => ?_) fun k => ?_)
    · rw [map_data_setNext, hun.data]
    · by_cases hk : before = k
      · subst hk
        rw [next_setNext_self hbefore', hl.next_eq]
      · rw [next_setNext_ne hk, hun.next_ne k (Ne.symm hk)]
    · rw [prev_setNext, hun.prev_ne k]
      rw [hnone]
      exact fun hk => by cases hk
  · rename_i after hafter
    have hlt : after < (setNext h' before (some p)).length := by
      rw [length_setNext]
      exact lt_of_prev (hun.prev_after after hafter)
    refine congrArg some (heap_ext ?_ (fun k => ?_) fun k => ?_)
    · rw [map_data_setPrev, map_data_setNext, hun.data]
    · rw [next_setPrev]
      by_cases hk : before = k
      · subst hk
        rw [next_setNext_self hbefore', hl.next_eq]
      · rw [next_setNext_ne hk, hun.next_ne k (Ne.symm hk)]
    · by_cases hk : after = k
      · subst hk
        rw [prev_setPrev_self hlt, (hl.after after hafter).1]
      · rw [prev_setPrev_ne hk, prev_setNext, hun.prev_ne k]
        rw [hafter]
        exact fun he => hk (Option.some.inj he)

/-! ### Chains -/

/-- The cells that follow `p`, up to the end of the list. -/
def Chain (h : List (Cell D)) : Nat → List Nat → Prop
  | p, [] => p < h.length ∧ next h p = none
  | p, r :: l => next h p = some r ∧ prev h r = some p ∧ Chain h r l

theorem Chain.lt {l : List Nat} (hc : Chain h p l) : ∀ r ∈ p :: l, r < h.length := by
  induction l generalizing p with
  | nil =>
    intro r hr
    rw [List.mem_singleton.mp hr]
    exact hc.1
  | cons q l ih =>
    intro r hr
    rcases List.mem_cons.mp hr with rfl | hr
    · exact lt_of_next hc.1
    · exact ih hc.2.2 r hr

theorem Chain.next_eq {l : List Nat} (hc : Chain h p l) : next h p = l.head? := by
  cases l with
  | nil => exact hc.2
  | cons r l => exact hc.1

/-- A chain depends on the pointers of its cells only. -/
theorem Chain.congr {h' : List (Cell D)} {l : List Nat} (hc : Chain h p l) (hlen : h.length ≤ h'.length)
    (hnext : ∀ k ∈ p :: l, next h' k = next h k) (hprev : ∀ k ∈ l, prev h' k = prev h k) : Chain h' p l := by
  induction l generalizing p with
  | nil => exact ⟨Nat.lt_of_lt_of_le hc.1 hlen, (hnext p (List.mem_singleton_self p)).trans hc.2⟩
  | cons r l ih =>
    refine ⟨(hnext p List.mem_cons_self).trans hc.1, (hprev r List.mem_cons_self).trans hc.2.1, ih hc.2.2 ?_ ?_⟩
    · exact fun k hk => hnext k (List.mem_cons_of_mem _ hk)
    · exact fun k hk => hprev k (List.mem_cons_of_mem _ hk)

/-- The cells from one in the middle on. -/
theorem Chain.drop {front rest : List Nat} {r : Nat} (hc : Chain h p (front ++ r :: rest)) : Chain h r rest := by
  induction front generalizing p with
  | nil => exact hc.2.2
  | cons q front ih => exact ih hc.2.2

/-- A cell in the middle stands between its neighbours. -/
theorem Chain.linked {front rest : List Nat} {r : Nat} (hc : Chain h p (front ++ r :: rest))
    (hnodup : (p :: (front ++ r :: rest)).Nodup) : ∃ before ∈ p :: front, Linked h r before := by
  induction front generalizing p with
  | nil =>
    obtain ⟨hnext, hprev, hrest⟩ := hc
    obtain ⟨hp, hr⟩ := List.nodup_cons.mp hnodup
    refine ⟨p, List.mem_singleton_self p, hprev, hnext, fun after hafter => ?_, ?_⟩
    · rw [hrest.next_eq] at hafter
      cases rest with
      | nil => cases hafter
      | cons q rest =>
        cases hafter
        exact ⟨hrest.2.1, fun heq => (List.nodup_cons.mp hr).1 (heq ▸ List.mem_cons_self)⟩
    · exact fun heq => hp (heq ▸ List.mem_cons_self)
  | cons q front ih =>
    obtain ⟨before, hmem, hl⟩ := ih hc.2.2 (List.nodup_cons.mp hnodup).2
    exact ⟨before, List.mem_cons_of_mem _ hmem, hl⟩

/-- Unlinking takes a cell out of the chain. -/
theorem Chain.unlink {front rest : List Nat} {r : Nat} {h' : List (Cell D)} (hc : Chain h p (front ++ r :: rest))
    (hnodup : (p :: (front ++ r :: rest)).Nodup) (hu : unlink h r = some h') : Chain h' p (front ++ rest) := by
  obtain ⟨before, hbefore, hl⟩ := hc.linked hnodup
  have hun := hl.unlinked hu
  have hlen : h'.length = h.length := by
    have := congrArg List.length hun.data
    rwa [List.length_map, List.length_map] at this
  have hnext : next h r = rest.head? := hc.drop.next_eq
  clear hu
  induction front generalizing p with
  | nil =>
    rw [List.mem_singleton] at hbefore
    subst hbefore
    obtain ⟨hp, hr⟩ := List.nodup_cons.mp hnodup
    cases rest with
    | nil => exact ⟨by rw [hlen]; exact lt_of_next hc.1, hun.next_before.trans hnext⟩
    | cons q rest =>
      refine ⟨hun.next_before.trans hnext, hun.prev_after q hnext, hc.2.2.2.2.congr (Nat.le_of_eq hlen.symm) (fun k hk => ?_) fun k hk => ?_⟩
      · exact hun.next_ne k fun heq => hp (heq ▸ List.mem_cons_of_mem _ hk)
      · refine hun.prev_ne k fun heq => ?_
        rw [hnext] at heq
        cases heq
        exact (List.nodup_cons.mp (List.nodup_cons.mp hr).2).1 hk
  | cons q front ih =>
    obtain ⟨hp, hnodup'⟩ := List.nodup_cons.mp hnodup
    have hbefore' : before ∈ q :: front := by
      rcases List.mem_cons.mp hbefore with rfl | hmem
      · -- The cell before `r` is the one before it in the chain, which is not the first one.
        obtain ⟨b, hb, hlb⟩ := hc.2.2.linked hnodup'
        have heq : b = before := Option.some.inj (hlb.prev_eq.symm.trans hl.prev_eq)
        exact heq ▸ hb
      · exact hmem
    refine ⟨?_, ?_, ih hc.2.2 hnodup' hbefore'⟩
    · rw [hun.next_ne p, hc.1]
      rintro rfl
      exact hp (List.mem_append_left _ hbefore')
    · rw [hun.prev_ne q, hc.2.1]
      rw [hnext]
      intro hq
      have hmem : q ∈ rest := List.mem_of_mem_head? hq
      exact (List.nodup_cons.mp hnodup').1 (List.mem_append_right _ (List.mem_cons_of_mem _ hmem))

end LinkedList
