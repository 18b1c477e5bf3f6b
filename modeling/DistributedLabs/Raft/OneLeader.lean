import DistributedLabs.Raft.Completeness

/-! `checkOneLeader` of the tester, which asks the servers one after the other for their state while the cluster goes on
    running. -/

namespace DistributedLabs

variable {n : Nat} {C : Type}

/-- `GetState`. -/
def Raft.getState (rf : Raft n C) : Nat × Bool := (rf.currentTerm, decide (rf.state = .leader))

/-! ### The function -/

/-- What one attempt sees: the answer of each server, and the terms of the map in the order in which `range` visits
    them. -/
structure Attempt (n : Nat) where
  states : Fin n → Nat × Bool
  visited : List Nat

namespace Attempt

/-- One round of the loop over the servers: `leaders[term] = append(leaders[term], i)` if `i` leads. -/
def addLeader (connected : Fin n → Bool) (a : Attempt n) (leaders : Nat → List (Fin n)) (i : Fin n) :
    Nat → List (Fin n) :=
  if connected i then
    match a.states i with
    | (term, true) => Function.update leaders term (leaders term ++ [i])
    | (_, false) => leaders
  else leaders

/-- The map from terms to leaders. A term is a key of it once it has a leader. -/
def leaders (connected : Fin n → Bool) (a : Attempt n) (servers : List (Fin n)) : Nat → List (Fin n) :=
  servers.foldl (a.addLeader connected) fun _ => []

/-- The loop over the map. -/
def lastTermWithLeader (leaders : Nat → List (Fin n)) (visited : List Nat) (last : Int) : Except String Int :=
  visited.foldlM (fun last term =>
    if (leaders term).length > 1 then
      .error ("term " ++ toString term ++ " has " ++ toString (leaders term).length ++ " (>1) leaders")
    else .ok (if term > last then (term : Int) else last)) last

/-- One attempt: the leader it returns, if the map has a key. -/
def leader (connected : Fin n → Bool) (a : Attempt n) : Except String (Option (Fin n)) :=
  match lastTermWithLeader (a.leaders connected (List.finRange n)) a.visited (-1) with
  | .error err => .error err
  | .ok last =>
    if a.visited.length ≠ 0 then .ok (a.leaders connected (List.finRange n) last.toNat).head? else .ok none

end Attempt

/-- `checkOneLeader`, for what its attempts see. -/
def checkOneLeader (connected : Fin n → Bool) : List (Attempt n) → Except String (Fin n)
  | [] => .error "expected one leader, got none"
  | a :: attempts =>
    match a.leader connected with
    | .error err => .error err
    | .ok (some i) => .ok i
    | .ok none => checkOneLeader connected attempts

/-! ### What an attempt finds -/

namespace Attempt

variable {connected : Fin n → Bool} {a : Attempt n}

/-- Server `i` is connected and answers that it leads `term`. -/
def Led (connected : Fin n → Bool) (a : Attempt n) (i : Fin n) (term : Nat) : Prop :=
  connected i = true ∧ a.states i = (term, true)

instance (connected : Fin n → Bool) (a : Attempt n) (i : Fin n) (term : Nat) : Decidable (a.Led connected i term) :=
  inferInstanceAs (Decidable (_ ∧ _))

theorem addLeader_eq (leaders : Nat → List (Fin n)) (i : Fin n) (term : Nat) :
    a.addLeader connected leaders i term = leaders term ++ [i].filter fun i => a.Led connected i term := by
  unfold addLeader
  by_cases hc : connected i = true
  · rw [if_pos hc]
    rcases hstate : a.states i with ⟨t, b⟩
    cases b with
    | false => simp [Led, hstate]
    | true =>
      by_cases ht : term = t
      · subst ht
        simp [Led, hc, hstate]
      · simp [Led, hstate, ht, Ne.symm ht]
  · simp [Led, hc]

theorem leaders_eq (servers : List (Fin n)) (term : Nat) :
    a.leaders connected servers term = servers.filter fun i => a.Led connected i term := by
  unfold leaders
  induction servers using List.reverseRecOn with
  | nil => rfl
  | append_singleton servers i ih =>
    rw [List.foldl_append, List.foldl_cons, List.foldl_nil, addLeader_eq, ih, List.filter_append]

theorem mem_leaders {i : Fin n} {term : Nat} :
    i ∈ a.leaders connected (List.finRange n) term ↔ a.Led connected i term := by
  rw [leaders_eq, List.mem_filter]
  simp

/-- The loop over the map finds the highest term, if no term has two leaders. -/
theorem lastTermWithLeader_ok {leaders : Nat → List (Fin n)} {visited : List Nat}
    (hone : ∀ term ∈ visited, (leaders term).length ≤ 1) (start : Int) :
    ∃ last, lastTermWithLeader leaders visited start = .ok last ∧ start ≤ last ∧ (∀ term ∈ visited, (term : Int) ≤ last) ∧
      (last = start ∨ ∃ term ∈ visited, last = (term : Int)) := by
  induction visited generalizing start with
  | nil => exact ⟨start, rfl, le_rfl, nofun, Or.inl rfl⟩
  | cons term visited ih =>
    have hround : lastTermWithLeader leaders (term :: visited) start =
        lastTermWithLeader leaders visited (if term > start then (term : Int) else start) := by
      unfold lastTermWithLeader
      rw [List.foldlM_cons, if_neg (Nat.not_lt.mpr (hone term List.mem_cons_self))]
      rfl
    obtain ⟨last, hok, hle, hall, hlast⟩ :=
      ih (fun t ht => hone t (List.mem_cons_of_mem _ ht)) (if term > start then (term : Int) else start)
    rw [hround]
    refine ⟨last, hok, ?_, List.forall_mem_cons.mpr ⟨?_, hall⟩, ?_⟩
    · split at hle <;> omega
    · split at hle <;> omega
    · rcases hlast with hlast | ⟨t, ht, hlast⟩
      · split at hlast
        · exact Or.inr ⟨term, List.mem_cons_self, hlast⟩
        · exact Or.inl hlast
      · exact Or.inr ⟨t, List.mem_cons_of_mem _ ht, hlast⟩

/-- `range` visits each key of the map. -/
def Visits (connected : Fin n → Bool) (a : Attempt n) : Prop := ∀ term, term ∈ a.visited ↔ ∃ i, a.Led connected i term

/-- If no term has two leaders, an attempt returns the leader of the highest term that has one. -/
theorem leader_ok (hvisits : a.Visits connected)
    (hone : ∀ i j term, a.Led connected i term → a.Led connected j term → i = j) :
    (∃ i term, a.leader connected = .ok (some i) ∧ a.Led connected i term ∧
      ∀ j term', a.Led connected j term' → term' ≤ term) ∨
    (a.leader connected = .ok none ∧ ∀ i term, ¬ a.Led connected i term) := by
  have hlength : ∀ term ∈ a.visited, (a.leaders connected (List.finRange n) term).length ≤ 1 := by
    intro term _
    have hnodup : (a.leaders connected (List.finRange n) term).Nodup := by
      rw [leaders_eq]
      exact (List.nodup_finRange n).filter _
    rcases hleaders : a.leaders connected (List.finRange n) term with _ | ⟨i, _ | ⟨j, rest⟩⟩
    · exact Nat.zero_le 1
    · exact Nat.le_refl 1
    · rw [hleaders] at hnodup
      have hi : a.Led connected i term := mem_leaders.mp (hleaders ▸ List.mem_cons_self)
      have hj : a.Led connected j term := mem_leaders.mp (hleaders ▸ List.mem_cons_of_mem _ List.mem_cons_self)
      rw [hone i j term hi hj] at hnodup
      exact absurd List.mem_cons_self (List.nodup_cons.mp hnodup).1
  obtain ⟨last, hok, -, hall, hlast⟩ := lastTermWithLeader_ok hlength (-1)
  have hleader : a.leader connected =
      if a.visited.length ≠ 0 then .ok (a.leaders connected (List.finRange n) last.toNat).head? else .ok none := by
    unfold leader
    rw [hok]
  rw [hleader]
  by_cases hempty : a.visited = []
  · refine Or.inr ⟨if_neg (by simp [hempty]), fun i term hled => ?_⟩
    have hmem := (hvisits term).mpr ⟨i, hled⟩
    rw [hempty] at hmem
    cases hmem
  · rw [if_pos (by simpa using hempty)]
    obtain ⟨t, ht⟩ := List.exists_mem_of_ne_nil _ hempty
    -- The start value of the loop is below every term.
    obtain ⟨term, hterm, rfl⟩ : ∃ term ∈ a.visited, last = (term : Int) := by
      rcases hlast with rfl | hlast
      · have := hall t ht
        omega
      · exact hlast
    obtain ⟨i, hi⟩ := (hvisits term).mp hterm
    rw [Int.toNat_natCast]
    cases hleaders : a.leaders connected (List.finRange n) term with
    | nil =>
      have hmem := mem_leaders.mpr hi
      rw [hleaders] at hmem
      cases hmem
    | cons j rest =>
      have hj : a.Led connected j term := mem_leaders.mp (hleaders ▸ List.mem_cons_self)
      refine Or.inl ⟨j, term, rfl, hj, fun k term' hk => ?_⟩
      have := hall term' ((hvisits term').mpr ⟨k, hk⟩)
      omega

/-- The servers answer one after the other while the cluster runs. -/
structure Observes (connected : Fin n → Bool) (a : Attempt n) (worlds : Fin n → World n C) : Prop where
  visits : a.Visits connected
  reachable : ∀ i, World.Reachable Guard.Safe (worlds i)
  ordered : ∀ i j, i ≤ j → World.Steps Guard.Safe (worlds i) (worlds j)
  states : ∀ i, a.states i = ((worlds i).rf i).getState

end Attempt

/-! ### In a run -/

theorem World.Reachable.leader_won {w : World n C} (hw : World.Reachable Guard.Safe w) {i : Fin n} {term : Nat}
    (h : (w.rf i).getState = (term, true)) : w.Won i term := by
  have hterm : (w.rf i).currentTerm = term := congrArg Prod.fst h
  have hleader : decide ((w.rf i).state = .leader) = true := congrArg Prod.snd h
  rw [← hterm]
  exact (hw.elections (fun _ _ h => h.voteCountedInTerm) (fun _ _ h => h.majorityAtInstall)).won i
    (of_decide_eq_true hleader)

/-- Two servers that answer that they lead one term, one now and one later, are the same. -/
theorem World.Reachable.leader_unique {w w' : World n C} (hw : World.Reachable Guard.Safe w)
    (hs : World.Steps Guard.Safe w w') {i j : Fin n} {term : Nat} (hi : (w.rf i).getState = (term, true))
    (hj : (w'.rf j).getState = (term, true)) : i = j := by
  have hw' : World.Reachable Guard.Safe w' := Relation.ReflTransGen.trans hw hs
  exact (hw'.votesOnce (fun _ _ h => h.leaderNotAsked) (fun _ _ h => h.voteOnDisk)).won_unique
    ((hw.leader_won hi).mono (World.Steps.events hs).subset) (hw'.leader_won hj)

theorem Attempt.Observes.unique {connected : Fin n → Bool} {a : Attempt n} {worlds : Fin n → World n C}
    (h : a.Observes connected worlds) {i j : Fin n} {term : Nat} (hi : a.Led connected i term)
    (hj : a.Led connected j term) : i = j := by
  have hi := (h.states i).symm.trans hi.2
  have hj := (h.states j).symm.trans hj.2
  rcases Nat.le_total i j with hle | hle
  · exact (h.reachable i).leader_unique (h.ordered i j hle) hi hj
  · exact ((h.reachable j).leader_unique (h.ordered j i hle) hj hi).symm

/-- In every run that meets the conditions, also with crashes: `checkOneLeader` does not find two leaders of one term.
    It returns the only leader of the highest term that an attempt saw led, and fails only if no attempt saw a leader. -/
theorem checkOneLeader_correct {connected : Fin n → Bool} {attempts : List (Attempt n)}
    (h : ∀ a ∈ attempts, ∃ worlds : Fin n → World n C, a.Observes connected worlds) :
    (∃ a ∈ attempts, ∃ i term, checkOneLeader connected attempts = .ok i ∧ a.Led connected i term ∧
      ∀ j term', a.Led connected j term' → term' ≤ term ∧ (term' = term → j = i)) ∨
    (checkOneLeader connected attempts = .error "expected one leader, got none" ∧
      ∀ a ∈ attempts, ∀ i term, ¬ a.Led connected i term) := by
  induction attempts with
  | nil => exact Or.inr ⟨rfl, nofun⟩
  | cons a attempts ih =>
    obtain ⟨worlds, ha⟩ := h a List.mem_cons_self
    unfold checkOneLeader
    rcases Attempt.leader_ok ha.visits (fun i j term hi hj => ha.unique hi hj) with ⟨i, term, hok, hi, hmax⟩ | ⟨hok, hno⟩
    · rw [hok]
      refine Or.inl ⟨a, List.mem_cons_self, i, term, rfl, hi, fun j term' hj => ⟨hmax j term' hj, ?_⟩⟩
      rintro rfl
      exact ha.unique hj hi
    · rw [hok]
      rcases ih fun b hb => h b (List.mem_cons_of_mem _ hb) with ⟨b, hb, hres⟩ | ⟨herr, hall⟩
      · exact Or.inl ⟨b, List.mem_cons_of_mem _ hb, hres⟩
      · exact Or.inr ⟨herr, List.forall_mem_cons.mpr ⟨hno, hall⟩⟩

/-- Server 0 is asked while it leads term 1, the others after server 1 was elected in term 2. -/
def askedTwice : Attempt 3 where
  states := fun i => if i = 0 then (1, true) else if i = 1 then (2, true) else (2, false)
  visited := [2, 1]

theorem checkOneLeader_correct_reelected : ∃ w w' : World 3 Nat, World.Reachable Guard.Safe w ∧
    World.Steps Guard.Safe w w' ∧ (w.rf 0).getState = (1, true) ∧ (w'.rf 1).getState = (2, true) ∧
    ∃ i term, checkOneLeader (fun _ => true) [askedTwice] = .ok i ∧ askedTwice.Led (fun _ => true) i term ∧
      ∀ j term', askedTwice.Led (fun _ => true) j term' → term' ≤ term ∧ (term' = term → j = i) := by
  obtain ⟨w, hw, h⟩ := World.exec_any Guard.Safe (World.init 3 Nat) replicated
    (fun w => decide ((w.rf 0).getState = (1, true)) && (w.exec Guard.Safe reelected).any fun (w' : World 3 Nat) =>
      decide ((w'.rf 1).getState = (2, true) ∧ (w'.rf 2).getState = (2, false))) (by decide)
  obtain ⟨h₀, h⟩ := Bool.and_eq_true_iff.mp h
  obtain ⟨w', hw', h⟩ := (Option.any_eq_true _ _).mp h
  obtain ⟨h₁, h₂⟩ := of_decide_eq_true h
  have h₀ := of_decide_eq_true h₀
  have hw : World.Reachable Guard.Safe w := World.exec_steps hw
  have hs : World.Steps Guard.Safe w w' := World.exec_steps hw'
  have hreach' : World.Reachable Guard.Safe w' := Relation.ReflTransGen.trans hw hs
  have hobserves : askedTwice.Observes (fun _ => true) fun i => if i = 0 then w else w' := by
    refine ⟨fun term => ⟨fun hterm => ?_, ?_⟩, fun i => ?_, fun i j hle => ?_, fun i => ?_⟩
    · rcases List.mem_pair.mp hterm with rfl | rfl
      · exact ⟨1, rfl, rfl⟩
      · exact ⟨0, rfl, rfl⟩
    · rintro ⟨i, -, hi⟩
      match i, hi with
      | 0, rfl => exact List.mem_cons_of_mem _ List.mem_cons_self
      | 1, rfl => exact List.mem_cons_self
    · split
      · exact hw
      · exact hreach'
    · by_cases hi : i = 0
      · by_cases hj : j = 0
        · rw [if_pos hi, if_pos hj]
          exact .refl
        · rw [if_pos hi, if_neg hj]
          exact hs
      · have hj : j ≠ 0 := fun hj => hi (Fin.le_zero_iff.mp (hj ▸ hle))
        rw [if_neg hi, if_neg hj]
        exact .refl
    · match i with
      | 0 => exact h₀.symm
      | 1 => exact h₁.symm
      | 2 => exact h₂.symm
  have hattempts : ∀ a ∈ [askedTwice], ∃ worlds : Fin 3 → World 3 Nat, a.Observes (fun _ => true) worlds := by
    intro a ha
    rw [List.mem_singleton.mp ha]
    exact ⟨_, hobserves⟩
  rcases checkOneLeader_correct hattempts with ⟨a, ha, i, term, hres⟩ | ⟨-, hno⟩
  · rw [List.mem_singleton.mp ha] at hres
    exact ⟨w, w', hw, hs, h₀, h₁, i, term, hres⟩
  · exact absurd ⟨rfl, rfl⟩ (hno askedTwice List.mem_cons_self 0 1)

end DistributedLabs
