import DistributedLabs.Raft.StaleHandlers
import DistributedLabs.Raft.StateMachine

/-! What later steps keep: the log of a leader, the log of a server up to its `commitIndex`, and the entries that a
    leader counts as matched. -/

namespace DistributedLabs

open ReplicatedLog

variable {n : Nat} {C : Type}

theorem World.step_write {w w' : World n C} {a : Action n C} (hs : w.step a = some w') (i : Fin n) :
    RfWrite w.cluster a i (w'.rf i) := by
  obtain ⟨es, hstep, -⟩ := World.step_inv hs
  exact (step_rf hstep i).write

/-! ### The log of a leader -/

/-- A message of its own term covers nothing that a leader lacks. -/
theorem Led.covered_prefix {w : World n C} {m : Replicas n C} (h : Led w m) {c : AppendCall n C}
    (hc : c ∈ w.cluster.appendCalls) (hl : (w.rf c.server).state = .leader)
    (hterm : c.args.term = (w.rf c.server).currentTerm) : covered m c.args <+: m.log c.server := by
  have hcur : m.cur c.server = c.args.term := by rw [h.refines.cur, hterm]
  obtain ⟨o, ho⟩ := (h.refines.messages c hc).owner
  rw [← hcur] at ho
  have hown : m.owner (m.cur c.server) = some c.server := by
    rcases h.leader_owns hl with hown | ⟨hnone, -⟩
    · exact hown
    · rw [hnone] at ho
      cases ho
  rw [(h.sound.reigns _ _ hown).2 rfl, hcur]
  exact List.take_prefix _ _

/-- In every run that meets the conditions on elections and handlers: as long as a server leads, a step keeps all
    entries of its log and adds new ones at its end only. -/
theorem leader_append_only {w w' : World n C} (hw : World.Reachable Guard.Leads w) {a : Action n C}
    (hg : Guard.Leads w.cluster a) (hs : w.step a = some w') {i : Fin n} (hl : (w.rf i).state = .leader) :
    (w.rf i).log <+: (w'.rf i).log := by
  obtain ⟨m, h⟩ := hw.led
  have hwrite := World.step_write hs i
  generalize hrf : w'.rf i = rf at hwrite
  cases hwrite with
  | append => exact List.prefix_append _ _
  | catchUp =>
    rw [Raft.catchUp_log]
    exact List.prefix_rfl
  | vote =>
    rw [Raft.vote_log, Raft.catchUp_log]
    exact List.prefix_rfl
  | @accept k c prevLog hc hi _ hprev hprevTerm ha hne =>
    subst ha hi
    have hmem := List.mem_of_getElem? hc
    have hterm := hg.acceptInTerm c hc hne (Raft.consistent_of_prevLog hprev hprevTerm)
    have hcovered := h.covered_prefix hmem hl hterm
    rcases h.accept_adopts hmem hprev hprevTerm hrf with ⟨-, hsame⟩ | ⟨hno, -⟩
    · rw [← hrf, hsame, h.refines.log]
    · exact absurd hcovered hno
  | crash hmake =>
    rw [((h.durable i).restored hmake).2.2]
    exact List.prefix_rfl
  | _ => exact List.prefix_rfl

theorem leader_append_only_replicated : ∃ w w' : World 3 Nat, (w.rf 0).state = .leader ∧
    w.step (.start 0 (some 11)) = some w' ∧ (w.rf 0).log <+: (w'.rf 0).log := by
  obtain ⟨w, hw, h⟩ := World.exec_any Guard.Leads (World.init 3 Nat) replicated
    (fun w => decide ((w.rf 0).state = .leader ∧ Guard.Leads w.cluster (.start 0 (some 11))) &&
      (w.step (.start 0 (some 11))).isSome) (by decide)
  obtain ⟨hl, hs⟩ := Bool.and_eq_true_iff.mp h
  obtain ⟨hl, hg⟩ := of_decide_eq_true hl
  obtain ⟨w', hs⟩ := Option.isSome_iff_exists.mp hs
  exact ⟨w, w', hl, hs, leader_append_only (World.exec_steps hw) hg hs hl⟩

/-- An `AppendEntries` of term 1 that was suspended before server 2 was elected replaces an entry of the leader. -/
theorem leader_entry_replaced : ∃ w w' : World 3 Nat, World.Reachable World.Any w ∧
    w.step (.appendEntriesLog 2) = some w' ∧ (w.rf 2).state = .leader ∧ (w'.rf 2).state = .leader ∧
    (w.rf 2).log[1]? = some ⟨2, some 20⟩ ∧ (w'.rf 2).log[1]? = some ⟨1, some 10⟩ := by
  obtain ⟨w, hw, h⟩ := World.exec_any World.Any (World.init 3 Nat) staleHandler
    (fun w => (w.step (.appendEntriesLog 2)).any fun (w' : World 3 Nat) =>
      decide ((w.rf 2).state = .leader ∧ (w'.rf 2).state = .leader ∧
        (w.rf 2).log[1]? = some (⟨2, some 20⟩ : Log Nat) ∧ (w'.rf 2).log[1]? = some (⟨1, some 10⟩ : Log Nat))) (by decide)
  obtain ⟨w', hs, h⟩ := (Option.any_eq_true _ _).mp h
  exact ⟨w, w', World.exec_steps hw, hs, of_decide_eq_true h⟩

/-! ### The committed prefix -/

/-- No crash, and the sections meet the conditions of agreement. -/
def Guard.Stable (s : Cluster n C) (a : Action n C) : Prop := NoCrash a ∧ Safe s a

instance (s : Cluster n C) (a : Action n C) : Decidable (Guard.Stable s a) := inferInstanceAs (Decidable (_ ∧ _))

/-- What a step keeps of a server: its `commitIndex` and its log up to there only grow, and `lastApplied` stays below
    or moves to `commitIndex`. -/
structure Raft.Extends (rf rf' : Raft n C) : Prop where
  commitIndex : rf.commitIndex ≤ rf'.commitIndex
  log : rf.log.take (rf.commitIndex + 1) <+: rf'.log
  lastApplied : rf'.lastApplied = rf.lastApplied ∨ rf'.lastApplied ≤ rf'.commitIndex

theorem Raft.Extends.of_eq {rf rf' : Raft n C} (hc : rf'.commitIndex = rf.commitIndex) (hlog : rf'.log = rf.log)
    (hlast : rf'.lastApplied = rf.lastApplied) : rf.Extends rf' where
  commitIndex := Nat.le_of_eq hc.symm
  log := hlog ▸ List.take_prefix _ _
  lastApplied := Or.inl hlast

theorem Commits.extends {w w' : World n C} {m : Replicas n C} {a : Action n C} (h : Commits w m) (ha : Agreed w m)
    (hg : Guard.Stable w.cluster a) (hs : w.step a = some w') (i : Fin n) : (w.rf i).Extends (w'.rf i) := by
  have hwrite := World.step_write hs i
  generalize hrf : w'.rf i = rf at hwrite
  cases hwrite with
  | commit => exact ⟨Raft.le_commitLoop _ _, List.take_prefix _ _, Or.inl rfl⟩
  | append => exact ⟨Nat.le_refl _, (List.take_prefix _ _).trans (List.prefix_append _ _), Or.inl rfl⟩
  | catchUp => exact .of_eq (Raft.catchUp_commitIndex _ _) (Raft.catchUp_log _ _) (Raft.catchUp_kept _ _).2.2.2.1
  | vote => exact .of_eq (Raft.catchUp_commitIndex _ _) (Raft.catchUp_log _ _) (Raft.catchUp_kept _ _).2.2.2.1
  | @accept k c prevLog hc hi _ hprev hprevTerm haction hne =>
    subst haction hi
    have hmem := List.mem_of_getElem? hc
    have hterm := hg.2.acceptInTerm c hc hne (Raft.consistent_of_prevLog hprev hprevTerm)
    have hkeep := h.accepted_keeps ha hmem hterm (ha.accept_adopts hmem hprev hprevTerm hrf)
    rw [hrf] at hkeep
    refine ⟨?_, hkeep, Or.inl (Raft.accept_lastApplied _ _)⟩
    -- The leader's index lies inside the message, so the smaller of the two is the higher one here.
    have hreach := (h.messages c hmem).1
    unfold AppendEntriesArgs.reach at hreach
    rcases Raft.accept_commitIndex (w.rf c.server) c.args with hci | ⟨hlt, hci⟩
    · exact Nat.le_of_eq hci.symm
    · unfold World.rf at hlt hci ⊢
      omega
  | apply => exact ⟨Nat.le_refl _, List.take_prefix _ _, Or.inr (Nat.le_refl _)⟩
  | crash _ haction =>
    rw [haction] at hg
    cases hg.1
  | _ => exact .of_eq rfl rfl rfl

/-- The loop over entries that all exist runs to its end. -/
theorem Raft.applyLoop_ends {log : List (Log C)} {lastApplied k : Nat} (h : lastApplied + k < log.length) :
    (Raft.applyLoop log lastApplied k).2 = true := by
  induction k generalizing lastApplied with
  | zero => rfl
  | succ k ih =>
    unfold Raft.applyLoop
    rw [List.getElem?_eq_getElem (by omega)]
    exact ih (by omega)

theorem World.Steps.safe {w w' : World n C} (h : World.Steps Guard.Stable w w') : World.Steps Guard.Safe w w' :=
  Relation.ReflTransGen.mono (fun _ _ ⟨a, hg, hs⟩ => ⟨a, hg.2, hs⟩) _ _ h

theorem World.Reachable.extends {w w' : World n C} (hw : World.Reachable Guard.Stable w)
    (hs : World.Steps Guard.Stable w w') (i : Fin n) :
    (w.rf i).commitIndex ≤ (w'.rf i).commitIndex ∧ (w.rf i).log.take ((w.rf i).commitIndex + 1) <+: (w'.rf i).log := by
  induction hs with
  | refl => exact ⟨Nat.le_refl _, List.take_prefix _ _⟩
  | @tail w₁ w₂ hs hn ih =>
    obtain ⟨a, hg, hstep⟩ := hn
    obtain ⟨m, ha, hc⟩ := World.Reachable.commits (World.Steps.safe (Relation.ReflTransGen.trans hw hs))
    have hext := hc.extends ha hg hstep i
    refine ⟨Nat.le_trans ih.1 hext.commitIndex, List.IsPrefix.trans ?_ hext.log⟩
    -- The prefix is no longer than what is committed now.
    have hlen := List.length_take_le ((w.rf i).commitIndex + 1) (w.rf i).log
    rw [List.prefix_take_iff]
    exact ⟨ih.2, by omega⟩

theorem World.Reachable.lastApplied_le {w : World n C} (hw : World.Reachable Guard.Stable w) (i : Fin n) :
    (w.rf i).lastApplied ≤ (w.rf i).commitIndex := by
  refine World.Reachable.keeps (I := fun w => (w.rf i).lastApplied ≤ (w.rf i).commitIndex) ?_ hw (Nat.le_refl 0)
  intro w₁ w₂ a hw₁ hle hg hstep
  obtain ⟨m, ha, hc⟩ := World.Reachable.commits (World.Steps.safe hw₁)
  have hext := hc.extends ha hg hstep i
  rcases hext.lastApplied with heq | hle'
  · rw [heq]
    exact Nat.le_trans hle hext.commitIndex
  · exact hle'

/-- In every run without crashes that meets the conditions, on every server: `lastApplied` is at most `commitIndex`,
    which lies inside the log, so that the applier runs to its end; from then on `commitIndex` never decreases, and
    every entry up to it stays. -/
theorem committed_prefix_stable {w : World n C} (hw : World.Reachable Guard.Stable w) (i : Fin n) :
    (w.rf i).lastApplied ≤ (w.rf i).commitIndex ∧ (w.rf i).commitIndex < (w.rf i).log.length ∧
    (w.rf i).apply.2.2 = true ∧
    ∀ w', World.Steps Guard.Stable w w' → (w.rf i).commitIndex ≤ (w'.rf i).commitIndex ∧
      ∀ k ≤ (w.rf i).commitIndex, (w'.rf i).log[k]? = (w.rf i).log[k]? := by
  obtain ⟨m, -, hc⟩ := World.Reachable.commits (World.Steps.safe hw)
  have hlen := (hc.servers i).1
  have hle := hw.lastApplied_le i
  refine ⟨hle, hlen, Raft.applyLoop_ends (by omega), fun w' hs => ?_⟩
  obtain ⟨hci, hpre⟩ := hw.extends hs i
  refine ⟨hci, fun k hk => ?_⟩
  obtain ⟨rest, hrest⟩ := hpre
  rw [← hrest, List.getElem?_append_left (by rw [List.length_take]; omega), List.getElem?_take_of_lt (by omega)]

theorem committed_prefix_stable_applied : ∃ w : World 3 Nat, (w.rf 2).commitIndex = 1 ∧ (w.rf 2).lastApplied = 1 ∧
    ∀ w', World.Steps Guard.Stable w w' → ∀ k ≤ (w.rf 2).commitIndex, (w'.rf 2).log[k]? = (w.rf 2).log[k]? := by
  obtain ⟨w, hw, h⟩ := World.exec_any Guard.Stable (World.init 3 Nat) appliedTwice
    (fun w => decide ((w.rf 2).commitIndex = 1 ∧ (w.rf 2).lastApplied = 1)) (by decide)
  obtain ⟨hci, hlast⟩ := of_decide_eq_true h
  exact ⟨w, hci, hlast, fun w' hs => ((committed_prefix_stable (World.exec_steps hw) 2).2.2.2 w' hs).2⟩

/-- The same `AppendEntries` replaces an entry that server 2 has committed. -/
theorem committed_entry_replaced : ∃ w w' : World 3 Nat, World.Reachable (fun _ a => Guard.NoCrash a) w ∧
    w.step (.appendEntriesLog 2) = some w' ∧ (w.rf 2).commitIndex = 1 ∧
    (w.rf 2).log[1]? = some ⟨2, some 20⟩ ∧ (w'.rf 2).log[1]? = some ⟨1, some 10⟩ := by
  obtain ⟨w, hw, h⟩ := World.exec_any (fun _ a => Guard.NoCrash a) (World.init 3 Nat) staleHandler
    (fun w => (w.step (.appendEntriesLog 2)).any fun (w' : World 3 Nat) =>
      decide ((w.rf 2).commitIndex = 1 ∧ (w.rf 2).log[1]? = some (⟨2, some 20⟩ : Log Nat) ∧
        (w'.rf 2).log[1]? = some (⟨1, some 10⟩ : Log Nat))) (by decide)
  obtain ⟨w', hs, h⟩ := (Option.any_eq_true _ _).mp h
  exact ⟨w, w', World.exec_steps hw, hs, of_decide_eq_true h⟩

/-! ### Matched entries -/

/-- A server that is still in the term in which it acknowledged holds what it acknowledged. -/
theorem Agreed.acked_held {w : World n C} {m : Replicas n C} (h : Agreed w m) {p : Fin n} {k : Nat}
    (hack : (p, m.cur p, k) ∈ m.acked) : (m.book (m.cur p)).take k <+: m.log p := by
  rcases h.backed.held hack (Nat.le_refl k) with hpre | ⟨t, hlt, hle, -⟩
  · exact hpre
  · omega

/-- In every run that meets the conditions, for every server in the term of a leader: the leader's `matchIndex` for it
    lies inside the leader's log, and the two logs are the same up to it. -/
theorem match_index_justified {w : World n C} (hw : World.Reachable Guard.Safe w) {i p : Fin n}
    (hl : (w.rf i).state = .leader) (hterm : (w.rf p).currentTerm = (w.rf i).currentTerm) :
    (w.rf i).matchIndex p < (w.rf i).log.length ∧
    ∀ k ≤ (w.rf i).matchIndex p, (w.rf p).log[k]? = (w.rf i).log[k]? := by
  obtain ⟨m, h⟩ := hw.agreed
  -- Both logs start with a common part that reaches the index.
  suffices hcommon : ∃ l, (w.rf i).matchIndex p < l.length ∧ l <+: (w.rf i).log ∧ l <+: (w.rf p).log by
    obtain ⟨l, hlen, ⟨rest, hi⟩, ⟨rest', hp⟩⟩ := hcommon
    refine ⟨?_, fun k hk => ?_⟩
    · rw [← hi, List.length_append]
      omega
    · rw [← hi, ← hp, List.getElem?_append_left (by omega), List.getElem?_append_left (by omega)]
  rcases h.matched.leaders i hl p with hzero | ⟨k, hk, hacc⟩
  · refine ⟨[Log.fake], ?_, ?_, ?_⟩
    · rw [hzero]
      exact Nat.zero_lt_one
    · rw [← h.refines.log]
      exact h.sound.start i
    · rw [← h.refines.log]
      exact h.sound.start p
  · have hcur : m.cur p = m.cur i := by rw [h.refines.cur, h.refines.cur, hterm]
    have hack : (p, m.cur i, k + 1) ∈ m.acked := by
      rw [h.refines.cur]
      exact h.refines.acked.mpr hacc
    have hown := h.owns_of_acked hl hack
    refine ⟨(m.book (m.cur i)).take (k + 1), ?_, ?_, ?_⟩
    · rw [List.length_take_of_le (h.backed.acked hack).2]
      exact Nat.lt_succ_of_le hk
    · rw [← (h.sound.reigns _ i hown).2 rfl, h.refines.log]
      exact List.take_prefix _ _
    · rw [← hcur] at hack ⊢
      rw [← h.refines.log]
      exact h.acked_held hack

theorem match_index_justified_replicated : ∃ w : World 3 Nat, (w.rf 0).state = .leader ∧ (w.rf 0).matchIndex 1 = 1 ∧
    (w.rf 1).log[1]? = (w.rf 0).log[1]? := by
  obtain ⟨w, hw, h⟩ := World.exec_any Guard.Safe (World.init 3 Nat) replicated
    (fun w => decide ((w.rf 0).state = .leader ∧ (w.rf 0).matchIndex 1 = 1 ∧
      (w.rf 1).currentTerm = (w.rf 0).currentTerm)) (by decide)
  obtain ⟨hl, hmatch, hterm⟩ := of_decide_eq_true h
  refine ⟨w, hl, hmatch, (match_index_justified (World.exec_steps hw) hl hterm).2 1 ?_⟩
  rw [hmatch]

/-- Server 0 leads term 1 and server 1 accepts its entry, but the reply stays under way. Server 2 leads term 2 and
    replaces the entry at server 1. Then server 0 leads term 3, which server 1 has heard of, and takes up the reply. -/
def lateReply : List (Action 5 Nat) :=
  [.startElectionTimer 0, .candidate 0, .requestVote 0, .requestVote 1, .sendRequestVote 0, .sendRequestVote 1,
    .poll 0 0, .leader 0, .start 0 (some 10), .leaderLoop 0, .appendEntriesTerm 1, .appendEntriesLog 1,
    .startElectionTimer 2, .candidate 2, .requestVote 6, .requestVote 7, .sendRequestVote 6, .sendRequestVote 7,
    .poll 2 0, .leader 2, .start 2 (some 20), .leaderLoop 2, .appendEntriesTerm 6, .appendEntriesLog 6,
    .startElectionTimer 0, .candidate 0, .startElectionTimer 0, .candidate 0, .requestVote 14, .requestVote 15,
    .sendRequestVote 14, .sendRequestVote 15, .requestVote 12, .poll 0 1, .leader 0, .sendAppendEntries 1]

theorem matched_entry_differs : ∃ w : World 5 Nat, World.Reachable Guard.Leads w ∧ (w.rf 0).state = .leader ∧
    (w.rf 1).currentTerm = (w.rf 0).currentTerm ∧ (w.rf 0).matchIndex 1 = 1 ∧
    (w.rf 0).log[1]? = some ⟨1, some 10⟩ ∧ (w.rf 1).log[1]? = some ⟨2, some 20⟩ := by
  obtain ⟨w, hw, h⟩ := World.exec_any Guard.Leads (World.init 5 Nat) lateReply
    (fun w => decide ((w.rf 0).state = .leader ∧ (w.rf 1).currentTerm = (w.rf 0).currentTerm ∧
      (w.rf 0).matchIndex 1 = 1 ∧ (w.rf 0).log[1]? = some (⟨1, some 10⟩ : Log Nat) ∧
      (w.rf 1).log[1]? = some (⟨2, some 20⟩ : Log Nat))) (by decide)
  exact ⟨w, World.exec_steps hw, of_decide_eq_true h⟩

end DistributedLabs
