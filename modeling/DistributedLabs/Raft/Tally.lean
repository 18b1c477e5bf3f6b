import DistributedLabs.Raft.Election

/-! The count of a candidate. All elections of a server share one `voteCount`, and a granted vote is counted whatever
    term it was asked for in; the count is genuine as long as votes come before the next election begins. -/

namespace DistributedLabs

variable {n : Nat} {C : Type}

namespace World

/-- Server `p` has granted server `i` its vote in `term`. -/
def granted (w : World n C) (i : Fin n) (term : Nat) (p : Fin n) : Bool :=
  w.events.any fun
    | .voted q t c _ => q = p && t = term && c = i
    | _ => false

/-- The other servers that granted server `i` their vote in `term`. -/
def granters (w : World n C) (i : Fin n) (term : Nat) : Finset (Fin n) :=
  Finset.univ.filter fun p => p ≠ i ∧ w.granted i term p

theorem granted_iff {w : World n C} {i p : Fin n} {term : Nat} :
    w.granted i term p = true ↔ ∃ log, .voted p term i log ∈ w.events := by
  unfold granted
  rw [List.any_eq_true]
  constructor
  · rintro ⟨e, he, h⟩
    split at h
    · simp only [Bool.and_eq_true, decide_eq_true_eq] at h
      obtain ⟨⟨rfl, rfl⟩, rfl⟩ := h
      exact ⟨_, he⟩
    · cases h
  · rintro ⟨log, hlog⟩
    exact ⟨_, hlog, by simp⟩

/-- The votes of a tally are the candidate's own and those of the others. -/
theorem Tally.le_granters {w : World n C} {i : Fin n} {term : Nat} {V : Finset (Fin n)} (h : w.Tally i term V) :
    (w.rf i).voteCount ≤ 1 + (w.granters i term).card := by
  have hsub : V ⊆ insert i (w.granters i term) := by
    intro p hp
    by_cases hpi : p = i
    · exact Finset.mem_insert.mpr (Or.inl hpi)
    · exact Finset.mem_insert_of_mem (Finset.mem_filter.mpr ⟨Finset.mem_univ p, hpi, granted_iff.mpr (h.voted p hp)⟩)
  calc (w.rf i).voteCount ≤ V.card := h.count
    _ ≤ (insert i (w.granters i term)).card := Finset.card_le_card hsub
    _ ≤ (w.granters i term).card + 1 := Finset.card_insert_le _ _
    _ = 1 + (w.granters i term).card := Nat.add_comm _ _

theorem Reachable.candidacies {w : World n C} (hw : Reachable Guard.VoteCountedInTerm w) : w.Candidacies := by
  refine Reachable.keeps ?_ hw candidacies_init
  intro w w' a hw h hg hs
  exact h.step hw.durable hw.named hg hs

end World

/-- In every run in which a candidate counts a vote only in the term it was asked for in, with or without crashes: the
    `voteCount` of a candidate is at most one more than the number of others that voted for it in its term. -/
theorem vote_tally_genuine {w : World n C} (hw : World.Reachable Guard.VoteCountedInTerm w) {i : Fin n}
    (hc : (w.rf i).state = .candidate) :
    (w.rf i).voteCount ≤ 1 + (w.granters i (w.rf i).currentTerm).card := by
  obtain ⟨V, hV⟩ := hw.candidacies.tally i hc
  exact hV.le_granters

/-- Server 0 stands for term 1, times out and stands for term 2, for which server 1 votes. -/
def secondElection : List (Action 3 Nat) :=
  [.startElectionTimer 0, .candidate 0, .startElectionTimer 0, .candidate 0, .requestVote 2, .sendRequestVote 2]

theorem vote_tally_genuine_second : ∃ w : World 3 Nat, (w.rf 0).currentTerm = 2 ∧ (w.rf 0).voteCount = 2 ∧
    (w.rf 0).voteCount ≤ 1 + (w.granters 0 2).card := by
  obtain ⟨w, hw, h⟩ := World.exec_any Guard.VoteCountedInTerm (World.init 3 Nat) secondElection
    (fun w => decide ((w.rf 0).state = .candidate ∧ (w.rf 0).currentTerm = 2 ∧ (w.rf 0).voteCount = 2)) (by decide)
  obtain ⟨hc, hterm, hcount⟩ := of_decide_eq_true h
  refine ⟨w, hterm, hcount, ?_⟩
  rw [← hterm]
  exact vote_tally_genuine (World.exec_steps hw) hc

/-- Server 1 votes for server 0 in term 1, but the reply is taken up when server 0 stands for term 2 already. -/
def lateVote : List (Action 3 Nat) :=
  [.startElectionTimer 0, .candidate 0, .requestVote 0, .startElectionTimer 0, .candidate 0, .sendRequestVote 0]

theorem late_vote_counted : ∃ w : World 3 Nat, World.Reachable (fun _ a => Guard.NoCrash a) w ∧
    (w.rf 0).state = .candidate ∧ (w.rf 0).currentTerm = 2 ∧ (w.rf 0).voteCount = 2 ∧ w.granters 0 2 = ∅ := by
  obtain ⟨w, hw, h⟩ := World.exec_any (fun _ a => Guard.NoCrash a) (World.init 3 Nat) lateVote
    (fun w => decide ((w.rf 0).state = .candidate ∧ (w.rf 0).currentTerm = 2 ∧ (w.rf 0).voteCount = 2 ∧
      w.granters 0 2 = ∅)) (by decide)
  exact ⟨w, World.exec_steps hw, of_decide_eq_true h⟩

end DistributedLabs
