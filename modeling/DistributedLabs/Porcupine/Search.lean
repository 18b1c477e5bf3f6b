import DistributedLabs.Lib.EliminationSearch
import DistributedLabs.Porcupine.Links

/-! The loop of `checkSingle` refines the search by elimination. The list of nodes stands for the events that are left, the
    bit set for the operations that were taken, and the cache for the sets that were entered, so every round is a step of
    that search: it never panics, it ends, and what it returns is right. -/

namespace DistributedLabs.Porcupine

open LinkedList Elimination Elimination.Event EliminationSearch Linearization

variable {I O S : Type}

/-! ### Entries as events -/

def Entry.event (e : Entry I O) : Elimination.Event Nat :=
  match e.kind with
  | .callEntry => .call e.id.toNat
  | .returnEntry => .ret e.id.toNat

/-- The events of the history. -/
def eventsOf (history : List (Entry I O)) : List (Elimination.Event Nat) := history.map Entry.event

/-- The history of the operations `0, ..., n - 1`, with their inputs and outputs: each is called and returns after that. -/
structure Wellformed (input : Nat → I) (output : Nat → O) (n : Nat) (history : List (Entry I O)) : Prop where
  paired : Paired (eventsOf history)
  id : ∀ e ∈ history, 0 ≤ e.id ∧ e.id < n
  value : ∀ e ∈ history, e.value =
    match e.kind with
    | .callEntry => .inl (input e.id.toNat)
    | .returnEntry => .inr (output e.id.toNat)
  length : history.length = 2 * n

/-- The address of the node of an event. -/
def addrOf : List (Elimination.Event Nat) → Elimination.Event Nat → Nat
  | [], _ => 0
  | x :: xs, e => if x = e then xs.length else addrOf xs e

/-- What the node of an event holds. -/
def nodeFor (input : Nat → I) (output : Nat → O) (F : List (Elimination.Event Nat)) :
    Elimination.Event Nat → Node I O
  | .call i => ⟨some (.inl (input i)), some (addrOf F (.ret i)), i⟩
  | .ret i => ⟨some (.inr (output i)), none, i⟩

section Addresses
variable {F : List (Elimination.Event Nat)} {e : Elimination.Event Nat}

theorem addrOf_lt (he : e ∈ F) : addrOf F e < F.length := by
  induction F with
  | nil => cases he
  | cons x F ih =>
    rw [addrOf]
    split
    · exact Nat.lt_succ_self _
    · rename_i hne
      exact (ih ((List.mem_cons.mp he).resolve_left (Ne.symm hne))).trans (Nat.lt_succ_self _)

theorem addrOf_cons_of_mem {x : Elimination.Event Nat} (hnodup : (x :: F).Nodup) (he : e ∈ F) :
    addrOf (x :: F) e = addrOf F e := by
  rw [addrOf, if_neg]
  rintro rfl
  exact (List.nodup_cons.mp hnodup).1 he

theorem map_addrOf (hnodup : F.Nodup) : F.map (addrOf F) = addresses F.length := by
  induction F with
  | nil => rfl
  | cons x F ih =>
    have hrest : F.map (addrOf (x :: F)) = F.map (addrOf F) :=
      List.map_congr_left fun e he => addrOf_cons_of_mem hnodup he
    rw [List.map_cons, hrest, ih (List.nodup_cons.mp hnodup).2, List.length_cons, addresses, addrOf, if_pos rfl]

/-- The addresses of the events that are left, and of the head, are different. -/
theorem nodup_map_addrOf (hnodup : F.Nodup) {xs : List (Elimination.Event Nat)} (hsub : xs.Sublist F) :
    (F.length :: xs.map (addrOf F)).Nodup := by
  refine List.nodup_cons.mpr ⟨fun hmem => ?_, ?_⟩
  · obtain ⟨e, he, heq⟩ := List.mem_map.mp hmem
    exact (addrOf_lt (hsub.subset he)).ne heq
  · refine List.Nodup.sublist (hsub.map _) ?_
    rw [map_addrOf hnodup]
    exact nodup_addresses _

end Addresses

section Nodes
variable {input : Nat → I} {output : Nat → O} {history : List (Entry I O)} {n : Nat}

theorem Entry.event_eq_ret {e : Entry I O} (hid : 0 ≤ e.id) {i : Nat} :
    e.event = .ret i ↔ e.kind = .returnEntry ∧ e.id = i := by
  unfold Entry.event
  cases e.kind with
  | callEntry => simp
  | returnEntry =>
    simp only [Event.ret.injEq, true_and]
    omega

theorem returnOf_eq (hnodup : (eventsOf history).Nodup) (hid : ∀ e ∈ history, 0 ≤ e.id) {i : Nat}
    (hret : .ret i ∈ eventsOf history) : returnOf history i = some (addrOf (eventsOf history) (.ret i)) := by
  induction history with
  | nil => cases hret
  | cons elem history ih =>
    have hiff := Entry.event_eq_ret (hid elem List.mem_cons_self) (i := i)
    have hlen : (eventsOf history).length = history.length := List.length_map ..
    have hevents : eventsOf (elem :: history) = elem.event :: eventsOf history := rfl
    rw [hevents] at hret hnodup ⊢
    rw [returnOf, addrOf]
    by_cases heq : elem.event = .ret i
    · rw [if_pos (hiff.mp heq), if_pos heq, hlen]
    · rw [if_neg (fun h => heq (hiff.mpr h)), if_neg heq]
      exact ih (List.nodup_cons.mp hnodup).2 (fun e he => hid e (List.mem_cons_of_mem _ he))
        ((List.mem_cons.mp hret).resolve_left (Ne.symm heq))

theorem nodesOf_addrOf (hnodup : (eventsOf history).Nodup)
    (hret : ∀ front i back, eventsOf history = front ++ .call i :: back → .ret i ∈ back)
    (hid : ∀ e ∈ history, 0 ≤ e.id)
    (hvalue : ∀ e ∈ history, e.value =
      match e.kind with
      | .callEntry => .inl (input e.id.toNat)
      | .returnEntry => .inr (output e.id.toNat))
    {e : Elimination.Event Nat} (he : e ∈ eventsOf history) :
    (nodesOf history)[addrOf (eventsOf history) e]? = some (nodeFor input output (eventsOf history) e) := by
  induction history with
  | nil => cases he
  | cons elem history ih =>
    have hevents : eventsOf (elem :: history) = elem.event :: eventsOf history := rfl
    have hlen : (eventsOf history).length = (nodesOf history).length := by
      rw [length_nodesOf]
      exact List.length_map ..
    have hid' : ∀ e ∈ history, 0 ≤ e.id := fun e he => hid e (List.mem_cons_of_mem _ he)
    rw [hevents] at he hnodup hret ⊢
    have hnodup' := (List.nodup_cons.mp hnodup).2
    by_cases heq : elem.event = e
    · subst heq
      rw [addrOf, if_pos rfl, nodesOf, hlen, List.getElem?_append_right le_rfl, Nat.sub_self]
      have hpos := hid elem List.mem_cons_self
      have hval := hvalue elem List.mem_cons_self
      unfold Entry.event at hret hnodup ⊢
      cases hk : elem.kind with
      | returnEntry =>
        rw [hk] at hval
        simp [nodeFor, hval, Int.toNat_of_nonneg hpos]
      | callEntry =>
        rw [hk] at hval hret hnodup
        have hmem : .ret elem.id.toNat ∈ eventsOf history := hret [] _ _ rfl
        have hfirst := returnOf_eq hnodup' hid' hmem
        rw [Int.toNat_of_nonneg hpos] at hfirst
        dsimp only at hval hnodup ⊢
        simp only [nodeFor, addrOf_cons_of_mem hnodup hmem, hval, Int.toNat_of_nonneg hpos, hfirst]
        rfl
    · have hmem : e ∈ eventsOf history := (List.mem_cons.mp he).resolve_left (Ne.symm heq)
      have hret' : ∀ front i back, eventsOf history = front ++ .call i :: back → .ret i ∈ back :=
        fun front i back h => hret (elem.event :: front) i back (by rw [h]; rfl)
      have hlt := addrOf_lt hmem
      rw [addrOf, if_neg heq, nodesOf, List.getElem?_append_left (hlen ▸ hlt),
        ih hnodup' hret' hid' (fun e he => hvalue e (List.mem_cons_of_mem _ he)) hmem]
      -- The address of a return is that in the rest of the history.
      cases e with
      | ret i => rfl
      | call i =>
        obtain ⟨front, back, hsplit⟩ := List.append_of_mem hmem
        have hback : Event.ret i ∈ eventsOf history := by
          rw [hsplit]
          exact List.mem_append_right _ (List.mem_cons_of_mem _ (hret' front i back hsplit))
        simp only [nodeFor, addrOf_cons_of_mem hnodup hback]

theorem Wellformed.node (hw : Wellformed input output n history) {e : Elimination.Event Nat}
    (he : e ∈ eventsOf history) :
    (nodesOf history)[addrOf (eventsOf history) e]? = some (nodeFor input output (eventsOf history) e) :=
  nodesOf_addrOf hw.paired.nodup (fun _ _ _ h => (hw.paired.split h).2) (fun e he => (hw.id e he).1) hw.value he

theorem Wellformed.op_lt (hw : Wellformed input output n history) {e : Elimination.Event Nat}
    (he : e ∈ eventsOf history) : e.op < n := by
  obtain ⟨elem, helem, rfl⟩ := List.mem_map.mp he
  have hid := hw.id elem helem
  have hop : elem.event.op = elem.id.toNat := by
    unfold Entry.event
    cases elem.kind <;> rfl
  omega

end Nodes

/-! ### The cache -/

/-- The entries of the cache are the sets that were entered, with their states. -/
structure CacheRep (n : Nat) (cache : BitVec 64 → List (CacheEntry S)) (seen : List (Finset Nat × S)) : Prop where
  of_seen : ∀ x ∈ seen, ∃ b : Bitset, b.Holds n x.1 ∧ ⟨b, x.2⟩ ∈ cache b.hash
  of_cache : ∀ k, ∀ x ∈ cache k, ∃ T, x.linearized.Holds n T ∧ (T, x.state) ∈ seen

section Cache
variable {n : Nat} {cache : BitVec 64 → List (CacheEntry S)} {seen : List (Finset Nat × S)} {b : Bitset}
  {T : Finset Nat} {s : S} {equal : S → S → Bool}

theorem CacheRep.contains (hc : CacheRep n cache seen) (hb : b.Holds n T) :
    cacheContains equal cache ⟨b, s⟩ = EliminationSearch.contains equal seen T s := by
  unfold cacheContains EliminationSearch.contains
  dsimp only
  rw [Bool.eq_iff_iff, List.any_eq_true, List.any_eq_true]
  constructor
  · rintro ⟨elem, helem, hmatch⟩
    rw [Bool.and_eq_true, Bitset.equals_iff] at hmatch
    obtain ⟨T', hT', hseen⟩ := hc.of_cache _ elem helem
    have heq : T = T' := (hb.eq_iff hT').mp hmatch.1
    exact ⟨_, hseen, by rw [Bool.and_eq_true]; exact ⟨decide_eq_true heq, hmatch.2⟩⟩
  · rintro ⟨x, hx, hmatch⟩
    rw [Bool.and_eq_true, decide_eq_true_eq] at hmatch
    obtain ⟨b', hb', hmem⟩ := hc.of_seen x hx
    obtain rfl : b = b' := (hb.eq_iff hb').mpr hmatch.1
    exact ⟨_, hmem, by rw [Bool.and_eq_true, Bitset.equals_iff]; exact ⟨rfl, hmatch.2⟩⟩

theorem CacheRep.add (hc : CacheRep n cache seen) (hb : b.Holds n T) :
    CacheRep n (Function.update cache b.hash (cache b.hash ++ [⟨b, s⟩])) (seen ++ [(T, s)]) where
  of_seen x hx := by
    rcases List.mem_append.mp hx with hx | hx
    · obtain ⟨b', hb', hmem⟩ := hc.of_seen x hx
      refine ⟨b', hb', ?_⟩
      by_cases hhash : b'.hash = b.hash
      · rw [hhash, Function.update_self]
        exact List.mem_append_left _ (hhash ▸ hmem)
      · rw [Function.update_of_ne hhash]
        exact hmem
    · cases List.mem_singleton.mp hx
      refine ⟨b, hb, ?_⟩
      rw [Function.update_self]
      exact List.mem_append_right _ (List.mem_singleton_self _)
  of_cache k x hx := by
    by_cases hk : k = b.hash
    · rw [hk, Function.update_self] at hx
      rcases List.mem_append.mp hx with hx | hx
      · obtain ⟨T', hT', hmem⟩ := hc.of_cache _ x hx
        exact ⟨T', hT', List.mem_append_left _ hmem⟩
      · cases List.mem_singleton.mp hx
        exact ⟨T, hb, List.mem_append_right _ (List.mem_singleton_self _)⟩
    · rw [Function.update_of_ne hk] at hx
      obtain ⟨T', hT', hmem⟩ := hc.of_cache _ x hx
      exact ⟨T', hT', List.mem_append_left _ hmem⟩

end Cache

/-! ### The longest prefixes -/

/-- The records of the first `n` operations, as `longest` has them. -/
def table (n : Nat) (longest : Nat → Option (List Nat)) : List (Option (List Int)) :=
  (List.range n).map fun i => (longest i).map (List.map Nat.cast)

section Longest
variable {n : Nat} {longest : Nat → Option (List Nat)} {h : Heap I O} {calls : List (CallsEntry S)} {ids l : List Nat}

theorem getElem?_table {i : Nat} (hi : i < n) : (table n longest)[i]? = some ((longest i).map (List.map Nat.cast)) := by
  unfold table
  rw [List.getElem?_map, List.getElem?_range hi]
  rfl

theorem set_table {i : Nat} (q : List Nat) :
    (table n longest).set i (some (q.map Nat.cast)) = table n (Function.update longest i (some q)) := by
  refine List.ext_getElem? fun j => ?_
  by_cases hj : j < n
  · rw [getElem?_table hj]
    by_cases hij : i = j
    · subst hij
      rw [List.getElem?_set_self (by simpa [table] using hj), Function.update_self]
      rfl
    · rw [List.getElem?_set_ne hij, getElem?_table hj, Function.update_of_ne (Ne.symm hij)]
  · rw [List.getElem?_eq_none (by simpa [table] using hj), List.getElem?_eq_none (by simpa [table] using hj)]

/-- The nodes of the calls are those of these operations. -/
def CallIds (h : Heap I O) (calls : List (CallsEntry S)) (ids : List Nat) : Prop :=
  List.Forall₂ (fun v (i : Nat) => (node h v.entry).map Node.id = some (i : Int)) calls ids

theorem seqOf_eq (hc : CallIds h calls ids) : seqOf h calls = some (ids.map Nat.cast) := by
  unfold seqOf
  induction hc with
  | nil => rfl
  | cons hv _ ih => simp [List.mapM_cons, hv, ih]

theorem recordOne_eq {v : CallsEntry S} {i : Nat} (hv : (node h v.entry).map Node.id = some (i : Int)) (hi : i < n) :
    recordOne h (l.map Nat.cast) (table n longest) v =
      some (table n (Function.update longest i (better l (longest i)))) := by
  obtain ⟨e, he, hid⟩ := Option.map_eq_some_iff.mp hv
  have hnat : e.id.toNat? = some i := by
    rw [hid]
    rfl
  simp only [recordOne, he, bind, Option.bind_some, hnat, getElem?_table hi]
  cases hl : longest i with
  | none => simp [better, set_table]
  | some q =>
    unfold better
    by_cases hlt : q.length < l.length
    · simp [hlt, set_table]
    · have hsame : Function.update longest i (some q) = longest := by rw [← hl, Function.update_eq_self]
      simp [hlt, hsame]

theorem foldlM_recordOne (hc : CallIds h calls ids) (hids : ∀ i ∈ ids, i < n) :
    calls.foldlM (recordOne h (l.map Nat.cast)) (table n longest) =
      some (table n fun i => if i ∈ ids then better l (longest i) else longest i) := by
  induction hc generalizing longest with
  | nil => simp
  | @cons v i calls ids hv _ ih =>
    rw [List.foldlM_cons, recordOne_eq hv (hids i List.mem_cons_self)]
    simp only [bind, Option.bind_some]
    rw [ih fun j hj => hids j (List.mem_cons_of_mem _ hj)]
    congr 2
    funext j
    by_cases hji : j = i
    · subst hji
      rw [Function.update_self, if_pos List.mem_cons_self]
      -- A second record of the same calls changes nothing.
      obtain ⟨q, hq, hle, -⟩ := better_spec l (longest j)
      have hagain : better l (some q) = some q := if_neg (not_lt.mpr hle)
      split
      · rw [hq, hagain]
      · rfl
    · rw [Function.update_of_ne hji]
      simp [hji]

theorem recordLongest_eq (hc : CallIds h calls ids) (hids : ∀ i ∈ ids, i < n) :
    recordLongest h calls (table n longest) = some (table n (recordAll ids longest)) := by
  unfold recordLongest
  rw [seqOf_eq hc]
  simp only [bind, Option.bind_some]
  exact foldlM_recordOne hc hids

end Longest

/-! ### The simulation -/

section Simulation
variable (input : Nat → I) (output : Nat → O) (history : List (Entry I O)) (n : Nat)

/-- What every heap of the search holds: the nodes of the entries and the head. -/
def heapData : List (Node I O) := nodesOf history ++ [⟨none, none, -1⟩]

/-- `unlift` gives back the lists from before the calls of the stack. -/
def Restores : Heap I O → List (Frame Nat S) → Prop
  | _, [] => True
  | h, f :: stack => ∃ h₀, unlift h (addrOf (eventsOf history) (.call f.op)) = some h₀ ∧
      h₀.map Cell.data = heapData history ∧
      Chain h₀ history.length (f.events.map (addrOf (eventsOf history))) ∧ Restores h₀ stack

/-- The variables of `checkSingle` stand for a configuration of the search. -/
structure Represents (s : Search I O S) (c : Config Nat S) : Prop where
  data : s.heap.map Cell.data = heapData history
  headEntry : s.headEntry = history.length
  chain : Chain s.heap history.length ((c.front ++ c.todo).map (addrOf (eventsOf history)))
  entry : s.entry = (c.todo.map (addrOf (eventsOf history))).head?
  state : s.state = c.state
  linearized : s.linearized.Holds n (taken c.stack).toFinset
  cache : CacheRep n s.cache c.seen
  calls : s.calls = c.stack.reverse.map fun f => ⟨addrOf (eventsOf history) (.call f.op), f.state⟩
  restores : Restores history s.heap c.stack
  longest : s.longest = table n c.longest

/-- The object that the operations act on. -/
def stepOf (model : Filled I O S) (s : S) (i : Nat) : Bool × S := model.step s (input i) (output i)

end Simulation

section Rounds
variable {input : Nat → I} {output : Nat → O} {history : List (Entry I O)} {n : Nat} {model : Filled I O S}
  {computePartial : Bool} {s : Search I O S} {c : Config Nat S}

/-- The configuration is one that the search can be in. -/
abbrev SearchInv (input : Nat → I) (output : Nat → O) (history : List (Entry I O)) (model : Filled I O S)
    (computePartial : Bool) (c : Config Nat S) : Prop :=
  Inv (stepOf input output model) computePartial (eventsOf history) model.init c

theorem node_of_data {h : Heap I O} (hw : Wellformed input output n history) (hdata : h.map Cell.data = heapData history)
    {e : Elimination.Event Nat} (he : e ∈ eventsOf history) :
    node h (addrOf (eventsOf history) e) = some (nodeFor input output (eventsOf history) e) := by
  have hlt : addrOf (eventsOf history) e < (nodesOf history).length := by
    rw [length_nodesOf]
    have hlen : (eventsOf history).length = history.length := List.length_map ..
    rw [← hlen]
    exact addrOf_lt he
  rw [node_eq, hdata, heapData, List.getElem?_append_left hlt, hw.node he]

/-- The events that are left are events of the history. -/
theorem SearchInv.sublist (hw : Wellformed input output n history)
    (hinv : SearchInv input output history model computePartial c) : (c.front ++ c.todo).Sublist (eventsOf history) := by
  rw [hinv.path.events_eq hw.paired]
  exact List.filter_sublist

theorem SearchInv.taken_mem (hinv : SearchInv input output history model computePartial c) {i : Nat}
    (hi : i ∈ taken c.stack) : .call i ∈ eventsOf history := hinv.path.takes.mem_call i hi

/-- The calls are the operations that were taken. -/
theorem Represents.callIds (hr : Represents history n s c) (hw : Wellformed input output n history)
    (hinv : SearchInv input output history model computePartial c) : CallIds s.heap s.calls (taken c.stack) := by
  unfold CallIds taken
  rw [hr.calls, ← List.map_reverse, List.forall₂_map_left_iff, List.forall₂_map_right_iff, List.forall₂_same]
  intro f hf
  have hmem : .call f.op ∈ eventsOf history := by
    refine hinv.taken_mem ?_
    unfold taken
    rw [← List.map_reverse]
    exact List.mem_map_of_mem hf
  rw [node_of_data hw hr.data hmem]
  rfl

theorem Represents.head_next (hr : Represents history n s c) :
    next s.heap s.headEntry = ((c.front ++ c.todo).map (addrOf (eventsOf history))).head? := by
  rw [hr.headEntry]
  exact hr.chain.next_eq

/-- The node after that of the first event to do. -/
theorem Represents.next_entry (hr : Represents history n s c) {e : Elimination.Event Nat}
    {back : List (Elimination.Event Nat)} (htodo : c.todo = e :: back) :
    next s.heap (addrOf (eventsOf history) e) = (back.map (addrOf (eventsOf history))).head? := by
  have hchain := hr.chain
  rw [htodo, List.map_append, List.map_cons] at hchain
  exact hchain.drop.next_eq

/-- Walking past a call. -/
theorem Represents.skip (hr : Represents history n s c) {a : Nat} {back : List (Elimination.Event Nat)}
    (htodo : c.todo = .call a :: back) :
    Represents history n { s with entry := next s.heap (addrOf (eventsOf history) (.call a)) } (c.skip a back) where
  data := hr.data
  headEntry := hr.headEntry
  chain := by
    have hchain := hr.chain
    rw [htodo] at hchain
    unfold Config.skip
    dsimp only
    rw [List.append_assoc, List.singleton_append]
    exact hchain
  entry := hr.next_entry htodo
  state := hr.state
  linearized := hr.linearized
  cache := hr.cache
  calls := hr.calls
  restores := hr.restores
  longest := hr.longest

/-- The list after a call and its return were taken out. -/
theorem Represents.lift (hr : Represents history n s c) (hw : Wellformed input output n history)
    (hinv : SearchInv input output history model computePartial c) {a : Nat} {back : List (Elimination.Event Nat)}
    (htodo : c.todo = .call a :: back) :
    ∃ heap, lift s.heap (addrOf (eventsOf history) (.call a)) = some heap ∧ heap.map Cell.data = heapData history ∧
      Chain heap history.length ((without a (c.front ++ .call a :: back)).map (addrOf (eventsOf history))) ∧
      unlift heap (addrOf (eventsOf history) (.call a)) = some s.heap := by
  have hpaired := hinv.path.paired hw.paired
  have hsub := SearchInv.sublist hw hinv
  have hchain := hr.chain
  rw [htodo] at hpaired hsub hchain
  obtain ⟨mid, rest, rfl⟩ := List.append_of_mem (hpaired.split rfl).2
  have hnodup := nodup_map_addrOf hw.paired.nodup hsub
  have hlen : (eventsOf history).length = history.length := List.length_map ..
  have hmem : Event.call a ∈ eventsOf history := hsub.subset (List.mem_append_right _ List.mem_cons_self)
  have hmatch : (node s.heap (addrOf (eventsOf history) (.call a))).bind Node.matched =
      some (addrOf (eventsOf history) (.ret a)) := by
    rw [node_of_data hw hr.data hmem]
    rfl
  rw [hlen] at hnodup
  simp only [List.map_append, List.map_cons] at hchain hnodup
  obtain ⟨heap, hlift, hchain', hdata, hun⟩ := lift_spec hchain hnodup hmatch
  refine ⟨heap, hlift, hdata.trans hr.data, ?_, hun⟩
  rw [hpaired.without_eq, List.map_append, List.map_append]
  exact hchain'

/-- Taking the operation that is called. -/
theorem Represents.take (hr : Represents history n s c) {a : Nat} {back : List (Elimination.Event Nat)}
    (htodo : c.todo = .call a :: back) {b : Bitset} (hb : b.Holds n (insert a (taken c.stack).toFinset))
    {heap : Heap I O} (hdata : heap.map Cell.data = heapData history)
    (hchain : Chain heap history.length
      ((without a (c.front ++ .call a :: back)).map (addrOf (eventsOf history))))
    (hun : unlift heap (addrOf (eventsOf history) (.call a)) = some s.heap) :
    Represents history n
      { s with
        cache := Function.update s.cache b.hash (s.cache b.hash ++ [⟨b, (stepOf input output model c.state a).2⟩])
        calls := s.calls ++ [⟨addrOf (eventsOf history) (.call a), s.state⟩]
        state := (stepOf input output model c.state a).2
        linearized := b
        heap := heap
        entry := next heap s.headEntry }
      (c.take (stepOf input output model) a back) where
  data := hdata
  headEntry := hr.headEntry
  chain := hchain
  entry := by
    dsimp only
    rw [hr.headEntry]
    exact hchain.next_eq
  state := rfl
  linearized := by
    rw [← toFinset_taken_cons ⟨a, c.state, c.front, back⟩ c.stack] at hb
    exact hb
  cache := hr.cache.add hb
  calls := by
    dsimp only [Config.take]
    rw [hr.calls, hr.state, List.reverse_cons, List.map_append]
    rfl
  restores := by
    have hbefore := hr.chain
    rw [htodo] at hbefore
    exact ⟨s.heap, hun, hr.data, hbefore, hr.restores⟩
  longest := hr.longest

/-- The branch of a call entry. -/
theorem Represents.tryCall (hr : Represents history n s c) (hw : Wellformed input output n history)
    (hinv : SearchInv input output history model computePartial c) {a : Nat} {back : List (Elimination.Event Nat)}
    (htodo : c.todo = .call a :: back) :
    ∃ s' c', advance (stepOf input output model) model.equal computePartial c = .running c' ∧
      tryCall model s (addrOf (eventsOf history) (.call a)) (nodeFor input output (eventsOf history) (.call a))
        (nodeFor input output (eventsOf history) (.ret a)) = some s' ∧ Represents history n s' c' := by
  have hsub := SearchInv.sublist hw hinv
  rw [htodo] at hsub
  have hmem : Event.call a ∈ eventsOf history := hsub.subset (List.mem_append_right _ List.mem_cons_self)
  have hlt : a < n := hw.op_lt hmem
  obtain ⟨b, hset, hb⟩ := hr.linearized.set hlt
  have hcontains : cacheContains model.equal s.cache ⟨b, (stepOf input output model c.state a).2⟩ =
      EliminationSearch.contains model.equal c.seen (insert a (taken c.stack).toFinset)
        (stepOf input output model c.state a).2 := hr.cache.contains hb
  have hstep : model.step s.state (input a) (output a) = stepOf input output model c.state a := by
    rw [hr.state]
    rfl
  have hbit : (Int.toNat? (a : Int)).bind s.linearized.set = some b := hset
  unfold advance Porcupine.tryCall
  simp only [htodo, nodeFor, hstep]
  cases hok : (stepOf input output model c.state a).1 with
  | false => exact ⟨_, _, by simp, by simp, hr.skip htodo⟩
  | true =>
    simp only [hbit, Bool.true_and, if_true]
    cases hin : EliminationSearch.contains model.equal c.seen (insert a (taken c.stack).toFinset)
        (stepOf input output model c.state a).2 with
    | true =>
      rw [hin] at hcontains
      exact ⟨_, _, by simp, by simp [hcontains], hr.skip htodo⟩
    | false =>
      rw [hin] at hcontains
      obtain ⟨heap, hlift, hdata, hchain, hun⟩ := hr.lift hw hinv htodo
      refine ⟨_, c.take (stepOf input output model) a back, by simp, ?_, hr.take htodo hb hdata hchain hun⟩
      simp [hcontains, hlift]

/-- The branch of a return entry. -/
theorem Represents.backtrack (hr : Represents history n s c) (hw : Wellformed input output n history)
    (hinv : SearchInv input output history model computePartial c) {f : Frame Nat S} {stack : List (Frame Nat S)}
    (hstack : c.stack = f :: stack) :
    ∃ s', backtrack computePartial s ⟨addrOf (eventsOf history) (.call f.op), f.state⟩ = some s' ∧
      Represents history n s' (c.putBack computePartial f stack) := by
  have htaken : f.op ∈ taken c.stack := by
    rw [hstack, taken_cons]
    exact List.mem_append_right _ (List.mem_singleton_self _)
  have hmem := hinv.taken_mem htaken
  have hlt : f.op < n := hw.op_lt hmem
  have hrestores := hr.restores
  rw [hstack] at hrestores
  obtain ⟨h₀, hun, hdata, hchain, hrest⟩ := hrestores
  have hlongest : updateLongest computePartial s = some (table n (c.putBack computePartial f stack).longest) := by
    unfold updateLongest Config.putBack
    dsimp only
    rw [hr.longest]
    split
    · exact recordLongest_eq (hr.callIds hw hinv) fun i hi => hw.op_lt (hinv.taken_mem hi)
    · rfl
  -- The bit of the last operation was set when it was taken, so it is new for the others.
  have hnew : f.op ∉ (taken stack).toFinset := by
    have hnodup := ((takes_iff hw.paired).mp hinv.path.takes).1
    rw [hstack, taken_cons] at hnodup
    rw [List.mem_toFinset]
    exact fun hin => (List.nodup_append.mp hnodup).2.2 _ hin _ (List.mem_singleton_self _) rfl
  have hclear : ∃ b : Bitset, s.linearized.clear f.op = some b ∧ b.Holds n (taken stack).toFinset := by
    have hlin := hr.linearized
    rw [hstack, toFinset_taken_cons] at hlin
    obtain ⟨b, hb, hholds⟩ := hlin.clear hlt
    rw [Finset.erase_insert hnew] at hholds
    exact ⟨b, hb, hholds⟩
  obtain ⟨b, hb, hholds⟩ := hclear
  have hnat : (nodeFor input output (eventsOf history) (.call f.op)).id.toNat? = some f.op := rfl
  refine ⟨{ s with
    entry := next h₀ (addrOf (eventsOf history) (.call f.op))
    state := f.state
    linearized := b
    calls := s.calls.dropLast
    heap := h₀
    longest := table n (c.putBack computePartial f stack).longest }, ?_, ?_⟩
  · unfold Porcupine.backtrack
    simp only [hlongest, bind, Option.bind_some, node_of_data hw hr.data hmem, hnat, hb, hun]
  · have hnext : next h₀ (addrOf (eventsOf history) (.call f.op)) =
        (f.back.map (addrOf (eventsOf history))).head? := by
      unfold Frame.events at hchain
      rw [List.map_append, List.map_cons] at hchain
      exact hchain.drop.next_eq
    refine ⟨hdata, hr.headEntry, ?_, hnext, rfl, hholds, hr.cache, ?_, hrest, rfl⟩
    · unfold Config.putBack
      dsimp only
      rw [List.append_assoc, List.singleton_append]
      exact hchain
    · dsimp only [Config.putBack]
      rw [hr.calls, hstack, List.reverse_cons, List.map_append]
      simp

/-- What a round returns, next to the step of the search. -/
def Simulates (history : List (Entry I O)) (n : Nat) (round : Option (Progress I O S)) : Outcome Nat S → Prop
  | .running c => ∃ s, round = some (.running s) ∧ Represents history n s c
  | .found l => round = some (.returned true (List.replicate n (some (l.map Nat.cast))))
  | .failed records => round = some (.returned false (table n records))
  | .stuck => True

/-- Every round of the loop is a step of the search. -/
theorem Represents.iterate (hr : Represents history n s c) (hw : Wellformed input output n history)
    (hinv : SearchInv input output history model computePartial c) :
    Simulates history n (iterate model computePartial false s)
      (advance (stepOf input output model) model.equal computePartial c) := by
  unfold Porcupine.iterate
  rw [hr.head_next]
  cases htodo : c.todo with
  | nil =>
    unfold advance
    simp only [htodo]
    by_cases hfront : c.front = []
    · have hlen : s.longest.map (fun _ => some ((taken c.stack).map (Nat.cast : Nat → Int))) =
          List.replicate n (some ((taken c.stack).map Nat.cast)) := by
        rw [hr.longest, table, List.map_map]
        exact List.ext_getElem (by simp) fun i hi hi' => by simp
      simp only [hfront, List.append_nil, List.map_nil, List.head?_nil, seqOf_eq (hr.callIds hw hinv),
        Option.map_some, hlen, if_true]
      rfl
    · rw [if_neg hfront]
      trivial
  | cons e back =>
    have hsub := SearchInv.sublist hw hinv
    rw [htodo] at hsub
    have hmem : e ∈ eventsOf history := hsub.subset (List.mem_append_right _ List.mem_cons_self)
    have hentry : s.entry = some (addrOf (eventsOf history) e) := by
      rw [hr.entry, htodo]
      rfl
    obtain ⟨p, hp⟩ : ∃ p, ((c.front ++ e :: back).map (addrOf (eventsOf history))).head? = some p := by
      cases c.front <;> exact ⟨_, rfl⟩
    rw [hp]
    simp only [Bool.false_eq_true, if_false, hentry, node_of_data hw hr.data hmem]
    cases e with
    | call a =>
      have hpaired := hinv.path.paired hw.paired
      rw [htodo] at hpaired
      have hret : Event.ret a ∈ eventsOf history :=
        hsub.subset (List.mem_append_right _ (List.mem_cons_of_mem _ (hpaired.split rfl).2))
      obtain ⟨s', c', hadv, htry, hr'⟩ := hr.tryCall hw hinv htodo
      have hmatched : (nodeFor input output (eventsOf history) (.call a)).matched =
          some (addrOf (eventsOf history) (.ret a)) := rfl
      simp only [hmatched, node_of_data hw hr.data hret, Option.bind_some, htry, Option.map_some, hadv]
      exact ⟨s', rfl, hr'⟩
    | ret a =>
      have hmatched : (nodeFor input output (eventsOf history) (.ret a)).matched = none := rfl
      unfold advance
      simp only [hmatched, htodo]
      cases hstack : c.stack with
      | nil =>
        have hcalls : s.calls.getLast? = none := by
          rw [hr.calls, hstack]
          rfl
        rw [hcalls, hr.longest]
        rfl
      | cons f stack =>
        have hcalls : s.calls.getLast? = some ⟨addrOf (eventsOf history) (.call f.op), f.state⟩ := by
          rw [hr.calls, hstack, List.reverse_cons, List.map_append]
          simp
        obtain ⟨s', hback, hr'⟩ := hr.backtrack hw hinv hstack
        simp only [hcalls, hback, Option.map_some]
        exact ⟨s', rfl, hr'⟩

theorem represents_start (hw : Wellformed input output n history) (model : Filled I O S) :
    Represents history n (startSearch model history) (start model.init (eventsOf history)) := by
  have hb := built history
  have hlen : (eventsOf history).length = history.length := List.length_map ..
  have hn : length (makeLinkedEntries history).heap (makeLinkedEntries history).heap.length
      (makeLinkedEntries history).root / 2 = n := by
    rw [hb.root, hb.inList.length_eq, hb.length, hw.length]
    omega
  have hmap : (eventsOf history).map (addrOf (eventsOf history)) = addresses history.length := by
    rw [map_addrOf hw.paired.nodup, hlen]
  unfold startSearch
  refine ⟨?_, hb.length, ?_, ?_, rfl, ?_, ?_, rfl, trivial, ?_⟩
  · dsimp only
    rw [map_data_insertBefore, map_data_alloc, hb.data]
    rfl
  · dsimp only [start]
    rw [List.nil_append, hmap, hb.root, ← hb.length]
    exact hb.inList.insertBefore.1
  · dsimp only [start]
    rw [hmap, hb.root, rootOf, hb.length]
  · dsimp only [start]
    rw [hn]
    exact Bitset.holds_new n
  · exact ⟨fun x hx => absurd hx List.not_mem_nil, fun k x hx => absurd hx List.not_mem_nil⟩
  · dsimp only [start]
    rw [hn]
    exact List.ext_getElem (by simp [table]) fun i hi hi' => by simp [table]

end Rounds

/-! ### What `checkSingle` returns -/

section Verdict
variable (input : Nat → I) (output : Nat → O) (history : List (Entry I O)) (n : Nat) (model : Filled I O S)
  (computePartial : Bool)

/-- A search that is not over, with a bound on the rounds that are left. -/
def Searching (rounds : Nat) (s : Search I O S) : Prop :=
  ∃ c, Represents history n s c ∧ SearchInv input output history model computePartial c ∧ potential c ≤ rounds

/-- The records are orders that the operations can be taken out in. -/
def Sound (records : Nat → Option (List Nat)) : Prop :=
  ∀ i q, records i = some q →
    i ∈ q ∧ (∃ rest, Takes (eventsOf history) q rest) ∧ Legal (stepOf input output model) model.init q

/-- The answer of a search that was not killed. -/
structure Verdict (ok : Bool) (longest : List (Option (List Int))) : Prop where
  found : ok = true → ∃ l, Takes (eventsOf history) l [] ∧ Legal (stepOf input output model) model.init l ∧
    longest = List.replicate n (some (l.map Nat.cast))
  failed : ok = false → ∃ records, longest = table n records ∧ Sound input output history model records ∧
    Explored (stepOf input output model) computePartial (eventsOf history) records ∅ model.init

variable {input output history n model computePartial} {s : Search I O S} {rounds : Nat}

/-- States that the model takes for equal accept the same operations. -/
def RespectsEqual (model : Filled I O S) : Prop :=
  ∀ s t, model.equal s t = true → ∀ l : List (I × O),
    Legal (fun s x => model.step s x.1 x.2) s l → Legal (fun s x => model.step s x.1 x.2) t l

theorem RespectsEqual.legal (he : RespectsEqual model) (s t : S) (hst : model.equal s t = true) (l : List Nat)
    (hl : Legal (stepOf input output model) s l) : Legal (stepOf input output model) t l :=
  (legal_map (fun i => (input i, output i)) _).mpr (he s t hst _ ((legal_map _ _).mp hl))

theorem searching_start (hw : Wellformed input output n history) :
    Searching input output history n model computePartial (cost history.length) (startSearch model history) := by
  refine ⟨_, represents_start hw model, inv_start, ?_⟩
  rw [potential_start]
  exact (congrArg cost (List.length_map ..)).le

/-- One round: the search goes on, closer to its end, or gives its answer. -/
theorem Searching.iterate (h : Searching input output history n model computePartial rounds s)
    (hw : Wellformed input output n history) (he : RespectsEqual model) :
    (∃ s' rounds', iterate model computePartial false s = some (.running s') ∧ rounds' < rounds ∧
        Searching input output history n model computePartial rounds' s') ∨
      ∃ ok longest, Porcupine.iterate model computePartial false s = some (.returned ok longest) ∧
        Verdict input output history n model computePartial ok longest := by
  obtain ⟨c, hr, hinv, hle⟩ := h
  have hsim := hr.iterate hw hinv
  have hgood := hinv.advance hw.paired he.legal
  cases hadv : advance (stepOf input output model) model.equal computePartial c with
  | stuck =>
    rw [hadv] at hgood
    exact hgood.elim
  | running c' =>
    rw [hadv] at hsim hgood
    obtain ⟨s', hit, hr'⟩ := hsim
    exact Or.inl ⟨s', potential c', hit, hgood.2.trans_le hle, c', hr', hgood.1, le_rfl⟩
  | found l =>
    rw [hadv] at hsim hgood
    exact Or.inr ⟨true, _, hsim, fun _ => ⟨l, hgood.1, hgood.2, rfl⟩, fun hno => Bool.noConfusion hno⟩
  | failed records =>
    rw [hadv] at hsim hgood
    exact Or.inr ⟨false, _, hsim, fun hno => Bool.noConfusion hno, fun _ => ⟨records, rfl, hgood.2, hgood.1⟩⟩

/-- The loop ends with an answer, after a number of rounds that depends on the length of the history only. -/
theorem Searching.runSearch (h : Searching input output history n model computePartial rounds s)
    (hw : Wellformed input output n history) (he : RespectsEqual model) :
    ∃ ok longest, Verdict input output history n model computePartial ok longest ∧
      ∀ more, rounds < more → runSearch model computePartial more s = some (.returned ok longest) := by
  induction rounds using Nat.strong_induction_on generalizing s with
  | _ rounds ih =>
    rcases h.iterate hw he with ⟨s', rounds', hit, hlt, h'⟩ | ⟨ok, longest, hit, hv⟩
    · obtain ⟨ok, longest, hv, hrun⟩ := ih rounds' hlt h'
      refine ⟨ok, longest, hv, fun more hmore => ?_⟩
      obtain ⟨more, rfl⟩ := Nat.exists_eq_succ_of_ne_zero (Nat.ne_of_gt (Nat.zero_lt_of_lt hmore))
      rw [Porcupine.runSearch, hit]
      exact hrun more (by omega)
    · refine ⟨ok, longest, hv, fun more hmore => ?_⟩
      obtain ⟨more, rfl⟩ := Nat.exists_eq_succ_of_ne_zero (Nat.ne_of_gt (Nat.zero_lt_of_lt hmore))
      rw [Porcupine.runSearch, hit]

theorem Wellformed.checkSingle (hw : Wellformed input output n history) (he : RespectsEqual model) :
    ∃ ok longest, Verdict input output history n model computePartial ok longest ∧
      ∀ rounds, cost history.length < rounds →
        checkSingle model history computePartial rounds = some (.returned ok longest) :=
  (searching_start hw).runSearch hw he

/-- The answer is yes if and only if all operations can be taken out in a legal order. -/
theorem Verdict.ok_iff {ok : Bool} {longest : List (Option (List Int))}
    (hv : Verdict input output history n model computePartial ok longest) :
    ok = true ↔ ∃ l, Takes (eventsOf history) l [] ∧ Legal (stepOf input output model) model.init l := by
  constructor
  · intro hok
    obtain ⟨l, ht, hl, -⟩ := hv.found hok
    exact ⟨l, ht, hl⟩
  · rintro ⟨l, ht, hl⟩
    cases hok : ok with
    | true => rfl
    | false =>
      obtain ⟨records, -, -, hexp⟩ := hv.failed hok
      have hall : (eventsOf history).filter (fun e => e.op ∉ (∅ : Finset Nat)) = eventsOf history := by simp
      exact absurd rfl (hexp l [] (by rw [hall]; exact ht) hl).1

end Verdict

end DistributedLabs.Porcupine
