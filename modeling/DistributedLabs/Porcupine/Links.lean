import DistributedLabs.Lib.Elimination
import DistributedLabs.Porcupine.Checker

/-! The linked list of a history. `makeLinkedEntries` builds a list whose nodes are the entries in their order, each call
    with its return; `lift` takes both out of the list, and `unlift` gives back the heap from before. -/

namespace DistributedLabs.Porcupine

open LinkedList

variable {I O S : Type}

/-! ### Nodes and pointers -/

section Heap
variable {h h' : Heap I O} {n p : Nat} {mark : Option Nat} {d : Node I O}

theorem node_eq (h : Heap I O) (p : Nat) : node h p = (h.map Cell.data)[p]? := (List.getElem?_map).symm

/-- What a node holds besides its pointers never changes. -/
@[simp] theorem map_data_insertBefore : (insertBefore h n mark).map Cell.data = h.map Cell.data := by
  cases mark with
  | none => rfl
  | some mark =>
    unfold insertBefore
    dsimp only
    split <;> simp

theorem map_data_alloc : (alloc h d).map Cell.data = h.map Cell.data ++ [d] := by simp [alloc]

@[simp] theorem length_alloc : (alloc h d).length = h.length + 1 := by simp [alloc]

theorem next_alloc_of_lt (hp : p < h.length) : next (alloc h d) p = next h p := by
  unfold next alloc
  rw [List.getElem?_append_left hp]

theorem prev_alloc_of_lt (hp : p < h.length) : prev (alloc h d) p = prev h p := by
  unfold prev alloc
  rw [List.getElem?_append_left hp]

theorem next_alloc_self : next (alloc h d) h.length = none := by simp [next, alloc]

theorem prev_alloc_self : prev (alloc h d) h.length = none := by simp [prev, alloc]

end Heap

/-! ### Building the list -/

/-- The addresses of the first `k` nodes, the newest one first. -/
def addresses : Nat → List Nat
  | 0 => []
  | k + 1 => k :: addresses k

theorem mem_addresses {k p : Nat} : p ∈ addresses k ↔ p < k := by
  induction k with
  | zero => simp [addresses]
  | succ k ih =>
    rw [addresses, List.mem_cons, ih]
    omega

theorem nodup_addresses (k : Nat) : (addresses k).Nodup := by
  induction k with
  | zero => exact List.nodup_nil
  | succ k ih => exact List.nodup_cons.mpr ⟨fun h => lt_irrefl _ (mem_addresses.mp h), ih⟩

theorem length_addresses (k : Nat) : (addresses k).length = k := by
  induction k with
  | zero => rfl
  | succ k ih => rw [addresses, List.length_cons, ih]

/-- The nodes of the heap are in one list, the newest one first. -/
structure InList (h : Heap I O) : Prop where
  chain : ∀ r l, addresses h.length = r :: l → prev h r = none ∧ Chain h r l

/-- The first node of the list. -/
def rootOf (h : Heap I O) : Option Nat := (addresses h.length).head?

section Build
variable {h : Heap I O} {d : Node I O}

theorem length_insertBefore {n : Nat} {mark : Option Nat} : (insertBefore h n mark).length = h.length := by
  have hdata : (insertBefore h n mark).map Cell.data = h.map Cell.data := map_data_insertBefore
  have := congrArg List.length hdata
  rwa [List.length_map, List.length_map] at this

/-- A new node in front of the list. -/
theorem InList.insertBefore (hl : InList h) :
    Chain (insertBefore (alloc h d) h.length (rootOf h)) h.length (addresses h.length) ∧
      prev (Porcupine.insertBefore (alloc h d) h.length (rootOf h)) h.length = none := by
  unfold rootOf
  cases hadd : addresses h.length with
  | nil => exact ⟨⟨by simp [Porcupine.insertBefore], next_alloc_self⟩, prev_alloc_self⟩
  | cons r l =>
    obtain ⟨hprev, hchain⟩ := hl.chain r l hadd
    have hmem : ∀ k ∈ r :: l, k < h.length := fun k hk => mem_addresses.mp (hadd ▸ hk)
    have hr : r < h.length := hmem r List.mem_cons_self
    have hnodup : (r :: l).Nodup := hadd ▸ nodup_addresses h.length
    have hprev' : prev (alloc h d) r = none := by rw [prev_alloc_of_lt hr, hprev]
    simp only [List.head?_cons, Porcupine.insertBefore, hprev']
    have hlen : h.length < (setPrev (alloc h d) r (some h.length)).length := by simp
    refine ⟨⟨next_setNext_self hlen, ?_, hchain.congr (by simp) (fun k hk => ?_) fun k hk => ?_⟩, ?_⟩
    · rw [prev_setNext, prev_setPrev_self (by rw [length_alloc]; omega)]
    · rw [next_setNext_ne (hmem k hk).ne', next_setPrev, next_alloc_of_lt (hmem k hk)]
    · have hne : r ≠ k := fun heq => (List.nodup_cons.mp hnodup).1 (heq ▸ hk)
      rw [prev_setNext, prev_setPrev_ne hne, prev_alloc_of_lt (hmem k (List.mem_cons_of_mem _ hk))]
    · rw [prev_setNext, prev_setPrev_ne hr.ne, prev_alloc_self]

theorem InList.push (hl : InList h) : InList (Porcupine.insertBefore (alloc h d) h.length (rootOf h)) := by
  constructor
  intro r l hadd
  rw [length_insertBefore, length_alloc] at hadd
  cases hadd
  exact ⟨hl.insertBefore.2, hl.insertBefore.1⟩

end Build

/-- The address of the first return with this id. -/
def returnOf : List (Entry I O) → Int → Option Nat
  | [], _ => none
  | elem :: entries, id =>
    if elem.kind = .returnEntry ∧ elem.id = id then some entries.length else returnOf entries id

/-- What the nodes of the entries hold, the last entry first. -/
def nodesOf : List (Entry I O) → List (Node I O)
  | [] => []
  | elem :: entries => nodesOf entries ++
      [⟨some elem.value, if elem.kind = .returnEntry then none else returnOf entries elem.id, elem.id⟩]

theorem length_nodesOf (entries : List (Entry I O)) : (nodesOf entries).length = entries.length := by
  induction entries with
  | nil => rfl
  | cons elem entries ih => simp [nodesOf, ih]

/-- What the loop of `makeLinkedEntries` builds. -/
structure Built (entries : List (Entry I O)) (l : Linking I O) : Prop where
  data : l.heap.map Cell.data = nodesOf entries
  root : l.root = rootOf l.heap
  returns : l.returns = returnOf entries
  inList : InList l.heap

theorem Built.length {entries : List (Entry I O)} {l : Linking I O} (hb : Built entries l) :
    l.heap.length = entries.length := by
  have := congrArg List.length hb.data
  rwa [List.length_map, length_nodesOf] at this

theorem Built.linkEntry {entries : List (Entry I O)} {l : Linking I O} (hb : Built entries l) (elem : Entry I O) :
    Built (elem :: entries) (linkEntry elem l) := by
  unfold Porcupine.linkEntry
  dsimp only
  rw [hb.root]
  cases hk : elem.kind with
  | returnEntry =>
    refine ⟨?_, ?_, ?_, hb.inList.push⟩
    · rw [map_data_insertBefore, map_data_alloc, hb.data, nodesOf, if_pos hk]
    · unfold rootOf
      rw [length_insertBefore, length_alloc]
      rfl
    · funext id
      dsimp only
      rw [returnOf, hb.returns, hb.length]
      by_cases hid : elem.id = id
      · rw [if_pos ⟨hk, hid⟩, ← hid, Function.update_self]
      · rw [if_neg (fun h => hid h.2), Function.update_of_ne (Ne.symm hid)]
  | callEntry =>
    have hne : elem.kind ≠ .returnEntry := by
      rw [hk]
      exact fun h => by cases h
    refine ⟨?_, ?_, ?_, hb.inList.push⟩
    · rw [map_data_insertBefore, map_data_alloc, hb.data, nodesOf, if_neg hne, hb.returns]
    · unfold rootOf
      rw [length_insertBefore, length_alloc]
      rfl
    · funext id
      rw [returnOf, if_neg (fun h => hne h.1), hb.returns]

theorem built (entries : List (Entry I O)) : Built entries (makeLinkedEntries entries) := by
  induction entries with
  | nil => exact ⟨rfl, rfl, rfl, ⟨fun r l h => by cases h⟩⟩
  | cons elem entries ih => exact ih.linkEntry elem

/-- The loop of `length` counts the nodes of a list. -/
theorem length_of_chain {h : Heap I O} {r : Nat} {l : List Nat} (hc : Chain h r l) {bound : Nat}
    (hbound : l.length < bound) : length h bound (some r) = l.length + 1 := by
  induction l generalizing r bound with
  | nil =>
    obtain ⟨bound, rfl⟩ := Nat.exists_eq_succ_of_ne_zero (Nat.ne_of_gt hbound)
    rw [length, hc.2]
    cases bound <;> rfl
  | cons q l ih =>
    obtain ⟨bound, rfl⟩ := Nat.exists_eq_succ_of_ne_zero (Nat.ne_of_gt (Nat.zero_lt_of_lt hbound))
    rw [length, hc.1, ih hc.2.2 (Nat.lt_of_succ_lt_succ hbound), List.length_cons]

theorem InList.length_eq {h : Heap I O} (hl : InList h) : Porcupine.length h h.length (rootOf h) = h.length := by
  unfold rootOf
  cases hadd : addresses h.length with
  | nil =>
    have hlen := length_addresses h.length
    rw [hadd] at hlen
    rw [← hlen]
    rfl
  | cons r l =>
    have hlen := length_addresses h.length
    rw [hadd, List.length_cons] at hlen
    rw [List.head?_cons, length_of_chain (hl.chain r l hadd).2 (by omega), hlen]

/-! ### Taking a call and its return out of the list -/

section Lift
variable {h h₁ : Heap I O} {p q : Nat}

theorem lift_eq {before after : Nat} (hprev : prev h p = some before) (hnext : next h p = some after) (hne : p ≠ before)
    (hmatch : (node h p).bind Node.matched = some q) (hu : unlink h p = some h₁) (hq : prev h₁ q ≠ some q) :
    lift h p = unlink h₁ q := by
  unfold unlink at hu
  rw [hprev, hnext] at hu
  dsimp only at hu
  cases hu
  have hnext' : next (setNext h before (some after)) p = some after := by rw [next_setNext_ne (Ne.symm hne), hnext]
  have hnode : node (setPrev (setNext h before (some after)) after (some before)) p = node h p := by
    rw [node_eq, node_eq, map_data_setPrev, map_data_setNext]
  simp only [lift, hprev, hnext, hnext', prev_setNext, hnode, hmatch, bind, Option.bind_some]
  unfold unlink
  cases hb : prev (setPrev (setNext h before (some after)) after (some before)) q with
  | none => rfl
  | some before' =>
    have hne' : before' ≠ q := by
      rintro rfl
      exact hq hb
    simp only [Option.bind_some, next_setNext_ne hne']
    cases next (setPrev (setNext h before (some after)) after (some before)) q <;> rfl

theorem unlift_eq {before after : Nat} (hmatch : (node h p).bind Node.matched = some q) (hr : relink h q = some h₁)
    (hq : prev h q ≠ some q) (hprev : prev h₁ p = some before) (hnext : next h₁ p = some after) (hne : p ≠ before) :
    unlift h p = relink h₁ p := by
  unfold relink at hr
  unfold unlift
  simp only [hmatch, bind, Option.bind_some]
  cases hb : prev h q with
  | none =>
    rw [hb] at hr
    cases hr
  | some before' =>
    have hne' : before' ≠ q := by
      rintro rfl
      exact hq hb
    rw [hb] at hr
    simp only [Option.bind_some, next_setNext_ne hne']
    have hfin : ((prev h₁ p).bind fun a => (next (setNext h₁ a (some p)) p).bind fun a' =>
        some (setPrev (setNext h₁ a (some p)) a' (some p))) = relink h₁ p := by
      unfold relink
      simp only [hprev, hnext, Option.bind_some, next_setNext_ne (Ne.symm hne)]
    cases hn : next h q with
    | none =>
      rw [hn] at hr
      cases hr
      exact hfin
    | some after' =>
      rw [hn] at hr
      cases hr
      exact hfin

/-- `lift` takes a call and its return, which comes later, out of the list, and `unlift` undoes this. -/
theorem lift_spec {head : Nat} {front mid rest : List Nat} (hc : Chain h head (front ++ p :: (mid ++ q :: rest)))
    (hnodup : (head :: (front ++ p :: (mid ++ q :: rest))).Nodup)
    (hmatch : (node h p).bind Node.matched = some q) :
    ∃ h', lift h p = some h' ∧ Chain h' head (front ++ (mid ++ rest)) ∧ h'.map Cell.data = h.map Cell.data ∧
      unlift h' p = some h := by
  obtain ⟨before, -, hp⟩ := hc.linked hnodup
  obtain ⟨h₁, hu₁⟩ := hp.unlink_some
  have hun₁ := hp.unlinked hu₁
  have hc₁ := hc.unlink hnodup hu₁
  have hnodup₁ : (head :: (front ++ (mid ++ q :: rest))).Nodup :=
    hnodup.sublist ((List.Sublist.append_left (List.sublist_cons_self _ _) _).cons_cons _)
  rw [← List.append_assoc] at hc₁ hnodup₁
  obtain ⟨before₂, -, hq⟩ := hc₁.linked hnodup₁
  obtain ⟨h₂, hu₂⟩ := hq.unlink_some
  have hun₂ := hq.unlinked hu₂
  have hc₂ := hc₁.unlink hnodup₁ hu₂
  rw [List.append_assoc] at hc₂
  have hself : prev h₁ q ≠ some q := by
    rw [hq.prev_eq]
    exact fun heq => hq.ne (Option.some.inj heq).symm
  obtain ⟨after, hafter⟩ : ∃ after, next h p = some after := by
    rw [hc.drop.next_eq]
    cases mid <;> exact ⟨_, rfl⟩
  have hdata : h₂.map Cell.data = h.map Cell.data := hun₂.data.trans hun₁.data
  refine ⟨h₂, ?_, hc₂, hdata, ?_⟩
  · rw [lift_eq hp.prev_eq hafter hp.ne hmatch hu₁ hself, hu₂]
  · have hmatch₂ : (node h₂ p).bind Node.matched = some q := by rw [node_eq, hdata, ← node_eq, hmatch]
    have hrel := hq.relink_unlink hu₂
    have hself₂ : prev h₂ q ≠ some q := by
      rw [hun₂.prev_ne q fun ha => (hq.after q ha).2 rfl]
      exact hself
    have hprev₁ : prev h₁ p = some before := by
      rw [hun₁.prev_ne p fun ha => (hp.after p ha).2 rfl, hp.prev_eq]
    have hnext₁ : next h₁ p = some after := by rw [hun₁.next_ne p hp.ne, hafter]
    rw [unlift_eq hmatch₂ hrel hself₂ hprev₁ hnext₁ hp.ne]
    exact hp.relink_unlink hu₁

end Lift

end DistributedLabs.Porcupine
