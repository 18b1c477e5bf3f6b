import DistributedLabs.Lib.Quorum
import DistributedLabs.Raft.World
import Mathlib.Order.Bounds.Basic

/-! The two places where `commitIndex` moves: the commit loop of a leader, which looks for the last index of its term
    that a majority matches, and the end of `AppendEntries`, which a heartbeat never reaches. -/

namespace DistributedLabs

open Quorum

variable {n : Nat} {C : Type}

namespace Raft

variable {rf : Raft n C}

/-! ### The commit loop -/

/-- The peers whose `matchIndex` reaches `index`. -/
def matching (rf : Raft n C) (index : Nat) : Finset (Fin n) :=
  Finset.univ.filter fun server => index ≤ rf.matchIndex server

/-- An index above `commitIndex` that a leader may commit: its entry is of the current term and more than half of the
    peers match it. -/
structure Committable (rf : Raft n C) (index : Nat) : Prop where
  above : rf.commitIndex < index
  inside : index ≤ rf.log.length - 1
  term : (rf.log[index]?).map Log.term = some rf.currentTerm
  matched : n < 2 * (rf.matching index).card

theorem matchNum_eq_card (rf : Raft n C) (index : Nat) : rf.matchNum index = (rf.matching index).card := by
  have hset : rf.matching index = ((List.finRange n).filter fun p => index ≤ rf.matchIndex p).toFinset := by
    ext p
    simp [matching]
  rw [hset, List.toFinset_card_of_nodup ((List.nodup_finRange n).filter _), ← List.countP_eq_length_filter]
  rfl

/-- The servers that a leader counts for an index. -/
theorem matchNum_majority {index : Nat} (h : n / 2 < rf.matchNum index) :
    ∃ R : Finset (Fin n), IsMajority R ∧ ∀ p ∈ R, index ≤ rf.matchIndex p := by
  refine ⟨rf.matching index, ?_, fun p hp => ?_⟩
  · rw [isMajority_fin, ← matchNum_eq_card]
    exact h
  · exact (Finset.mem_filter.mp hp).2

theorem matchNum_half {index : Nat} : n / 2 < rf.matchNum index ↔ n < 2 * (rf.matching index).card := by
  rw [matchNum_eq_card]
  omega

/-- What the loop moves `commitIndex` to may be committed. -/
theorem committable_commitLoop {m : Nat} (hm : m ≤ rf.log.length - 1) (hmoved : rf.commitLoop m ≠ rf.commitIndex) :
    rf.Committable (rf.commitLoop m) := by
  rcases rf.commitLoop_cases m with h | ⟨habove, hle, hterm, hmatch⟩
  · exact absurd h hmoved
  · exact ⟨habove, Nat.le_trans hle hm, hterm, matchNum_half.mp hmatch⟩

/-- The loop, which comes from above, does not pass an index that may be committed. -/
theorem Committable.le_commitLoop {index m : Nat} (h : rf.Committable index) (hm : index ≤ m) :
    index ≤ rf.commitLoop m := by
  induction m with
  | zero => exact absurd (Nat.lt_of_lt_of_le h.above hm) (Nat.not_lt_zero _)
  | succ m ih =>
    unfold commitLoop
    split
    · rename_i hc
      exact absurd (Nat.lt_of_lt_of_le h.above hm) (Nat.not_lt.mpr hc)
    · split
      · exact hm
      · rename_i hskip
        have hne : index ≠ m + 1 := by
          rintro rfl
          exact hskip ⟨h.term, matchNum_half.mpr h.matched⟩
        exact ih (Nat.le_of_lt_succ (Nat.lt_of_le_of_ne hm hne))

theorem le_commitLoop (rf : Raft n C) (m : Nat) : rf.commitIndex ≤ rf.commitLoop m := by
  rcases rf.commitLoop_cases m with h | ⟨habove, -⟩
  · exact Nat.le_of_eq h.symm
  · exact Nat.le_of_lt habove

/-- One pass of the commit loop moves `commitIndex` to the greatest index that may be committed, or leaves it when there
    is none. So it never decreases, and where it moves to an entry stands that is of the current term. -/
theorem commit_greatest (rf : Raft n C) :
    ((∃ index, rf.Committable index) → IsGreatest {index | rf.Committable index} rf.commit.commitIndex) ∧
    ((¬ ∃ index, rf.Committable index) → rf.commit.commitIndex = rf.commitIndex) ∧
    rf.commitIndex ≤ rf.commit.commitIndex ∧
    (rf.commit.commitIndex ≠ rf.commitIndex → rf.commit.commitIndex < rf.log.length ∧
      (rf.log[rf.commit.commitIndex]?).map Log.term = some rf.currentTerm) := by
  rw [commit_commitIndex]
  have hmoved := @committable_commitLoop _ _ rf _ (Nat.le_refl (rf.log.length - 1))
  refine ⟨?_, ?_, le_commitLoop rf _, ?_⟩
  · rintro ⟨index, hindex⟩
    refine ⟨hmoved ?_, fun other hother => hother.le_commitLoop hother.inside⟩
    exact Nat.ne_of_gt (Nat.lt_of_lt_of_le hindex.above (hindex.le_commitLoop hindex.inside))
  · intro hnone
    by_contra hne
    exact hnone ⟨_, hmoved hne⟩
  · intro hne
    have hcommit := hmoved hne
    refine ⟨?_, hcommit.term⟩
    have hpos := hcommit.above
    have hinside := hcommit.inside
    omega

/-- A leader of term 2 whose last entry has reached itself only. -/
def partlyMatched : Raft 3 Nat :=
  { fresh 0 makePersister with
    state := .leader
    currentTerm := 2
    log := [⟨0, none⟩, ⟨1, some 10⟩, ⟨2, some 11⟩, ⟨2, some 12⟩]
    matchIndex := fun server => 3 - server }

theorem commit_greatest_partlyMatched : IsGreatest {index | partlyMatched.Committable index} 2 := by
  have h : partlyMatched.commit.commitIndex = 2 := by decide
  rw [← h]
  exact (commit_greatest partlyMatched).1 ⟨2, by decide, by decide, by decide, by decide⟩

/-! ### The follower -/

/-- A message that is not of an old term gets to the second section. -/
theorem appendEntries_of_le {args : AppendEntriesArgs n C} (h : rf.currentTerm ≤ args.term) :
    rf.appendEntries args = (rf.catchUp args.term).appendEntriesLog args := by
  unfold appendEntries appendEntriesTerm
  rw [if_neg (Nat.not_lt.mpr h)]

/-- The second section moves `commitIndex` only for a message with entries, and then to where the entries end if
    `LeaderCommit` is higher. -/
theorem appendEntriesLog_commitIndex {args : AppendEntriesArgs n C} (h : rf.Consistent args) :
    (rf.appendEntriesLog args).2.success = true ∧
    (rf.appendEntriesLog args).1.commitIndex =
      if args.entries ≠ [] ∧ rf.commitIndex < args.leaderCommit then
        min args.leaderCommit (args.prevLogIndex + args.entries.length)
      else rf.commitIndex := by
  obtain ⟨prevLog, hprev, hterm⟩ := Option.map_eq_some_iff.mp h
  unfold appendEntriesLog
  rw [hprev]
  simp only [ne_eq, hterm, not_true_eq_false, if_false]
  split
  · rename_i hnil
    rw [if_neg (fun hc => hc.1 hnil)]
    exact ⟨rfl, rfl⟩
  · rename_i hne
    refine ⟨rfl, ?_⟩
    unfold accept
    dsimp only
    split
    · rename_i hlt
      rw [if_pos ⟨hne, hlt⟩]
    · rename_i hle
      rw [if_neg (fun hc => hle hc.2)]
      rfl

/-- A message that passes the term and consistency checks leaves `commitIndex` at the greater of its old value and
    the lesser of `LeaderCommit` and the end of the entries if and only if a heartbeat brings no higher
    value and the entries of a message that brings one do not end below `commitIndex`. -/
theorem appendEntries_commit_rule {args : AppendEntriesArgs n C} (hterm : rf.currentTerm ≤ args.term)
    (hprev : rf.Consistent args) :
    (rf.appendEntries args).2.success = true ∧
    ((rf.appendEntries args).1.commitIndex =
        max rf.commitIndex (min args.leaderCommit (args.prevLogIndex + args.entries.length)) ↔
      (args.entries = [] → min args.leaderCommit args.prevLogIndex ≤ rf.commitIndex) ∧
      (args.entries ≠ [] → rf.commitIndex < args.leaderCommit →
        rf.commitIndex ≤ args.prevLogIndex + args.entries.length)) := by
  have hcheck : (rf.catchUp args.term).Consistent args := by
    unfold Consistent
    rw [catchUp_log]
    exact hprev
  obtain ⟨hsuccess, hcommit⟩ := appendEntriesLog_commitIndex hcheck
  rw [appendEntries_of_le hterm]
  refine ⟨hsuccess, ?_⟩
  rw [hcommit, catchUp_commitIndex]
  by_cases hnil : args.entries = []
  · rw [if_neg (fun hc => hc.1 hnil)]
    simp only [hnil, List.length_nil, Nat.add_zero, ne_eq, not_true_eq_false, false_implies, and_true, true_implies]
    omega
  · simp only [ne_eq, hnil, not_false_eq_true, true_and, true_implies, false_implies]
    split <;> omega

end Raft

theorem appendEntries_commit_rule_entries :
    ((Raft.fresh 1 makePersister : Raft 3 Nat).appendEntries ⟨1, 0, 0, 0, [⟨1, some 10⟩, ⟨1, some 11⟩], 1⟩).1.commitIndex =
      max (Raft.fresh 1 makePersister : Raft 3 Nat).commitIndex (min 1 (0 + 2)) :=
  (Raft.appendEntries_commit_rule (by decide) (by decide)).2.mpr ⟨by decide, by decide⟩

/-- Server 0 is elected, its entry reaches servers 0 and 1, it commits the entry and sends a heartbeat. -/
def heartbeatAfterCommit : List (Action 3 Nat) :=
  [.startElectionTimer 0, .candidate 0, .requestVote 0, .sendRequestVote 0, .poll 0 0, .leader 0, .start 0 (some 10),
    .leaderLoop 0, .appendEntriesTerm 0, .appendEntriesLog 0, .sendAppendEntries 0, .appendEntriesTerm 1,
    .appendEntriesLog 1, .sendAppendEntries 1, .leaderLoop 0, .startHeartBeat 0]

theorem heartbeat_leaves_commitIndex : ∃ (w : World 3 Nat) (c : AppendCall 3 Nat), World.Reachable World.Any w ∧
    w.cluster.appendCalls[4]? = some c ∧ c.server = 1 ∧ c.args.entries = [] ∧ (w.rf 1).currentTerm ≤ c.args.term ∧
    (w.rf 1).Consistent c.args ∧ ((w.rf 1).appendEntries c.args).2.success = true ∧
    ((w.rf 1).appendEntries c.args).1.commitIndex = 0 ∧
    max (w.rf 1).commitIndex (min c.args.leaderCommit (c.args.prevLogIndex + c.args.entries.length)) = 1 := by
  obtain ⟨w, hw, h⟩ := World.exec_any World.Any (World.init 3 Nat) heartbeatAfterCommit
    (fun w => (w.cluster.appendCalls[4]?).any fun (c : AppendCall 3 Nat) =>
      decide (c.server = 1 ∧ c.args.entries = [] ∧ (w.rf 1).currentTerm ≤ c.args.term ∧ (w.rf 1).Consistent c.args ∧
        ((w.rf 1).appendEntries c.args).2.success = true ∧ ((w.rf 1).appendEntries c.args).1.commitIndex = 0 ∧
        max (w.rf 1).commitIndex (min c.args.leaderCommit (c.args.prevLogIndex + c.args.entries.length)) = 1))
    (by decide)
  obtain ⟨c, hc, h⟩ := (Option.any_eq_true _ _).mp h
  exact ⟨w, c, World.exec_steps hw, hc, of_decide_eq_true h⟩

end DistributedLabs
