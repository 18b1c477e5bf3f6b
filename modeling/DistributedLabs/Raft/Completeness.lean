import DistributedLabs.Lib.Completeness
import DistributedLabs.Raft.Commitment
import DistributedLabs.Raft.Refinement
import DistributedLabs.Raft.Speakers

/-! Leader completeness. Under the conditions below a cluster refines the replicated log whose terms are claimed
    with a majority of votes, and what a leader loop commits is acknowledged by a majority there. -/

namespace DistributedLabs

open ReplicatedLog Quorum

variable {n : Nat} {C : Type}

/-- The points at which elections and the handlers of entries do not check what the protocol needs are passed in the
    right state. -/
structure Guard.Leads (s : Cluster n C) (a : Action n C) : Prop where
  leaderNotAsked : LeaderNotAsked s a
  voteOnDisk : VoteOnDisk s a
  voteCountedInTerm : VoteCountedInTerm s a
  majorityAtInstall : MajorityAtInstall s a
  loopIdle : LoopIdle s a
  acceptInTerm : AcceptInTerm s a

instance (s : Cluster n C) (a : Action n C) : Decidable (Guard.Leads s a) :=
  decidable_of_iff (Guard.LeaderNotAsked s a ∧ Guard.VoteOnDisk s a ∧ Guard.VoteCountedInTerm s a ∧
      Guard.MajorityAtInstall s a ∧ Guard.LoopIdle s a ∧ Guard.AcceptInTerm s a)
    ⟨fun ⟨h₁, h₂, h₃, h₄, h₅, h₆⟩ => ⟨h₁, h₂, h₃, h₄, h₅, h₆⟩, fun ⟨h₁, h₂, h₃, h₄, h₅, h₆⟩ => ⟨h₁, h₂, h₃, h₄, h₅, h₆⟩⟩

/-- And so are the points at which a leader takes up what others hold. -/
structure Guard.Safe (s : Cluster n C) (a : Action n C) : Prop extends Leads s a where
  matchInTerm : MatchInTerm s a

instance (s : Cluster n C) (a : Action n C) : Decidable (Guard.Safe s a) :=
  decidable_of_iff (Guard.Leads s a ∧ Guard.MatchInTerm s a) ⟨fun ⟨h₁, h₂⟩ => ⟨h₁, h₂⟩, fun ⟨h₁, h₂⟩ => ⟨h₁, h₂⟩⟩

/-! ### One owner per term -/

/-- What holds along a run in which each term has one owner, with the replicas that it refines. -/
structure Led (w : World n C) (m : Replicas n C) : Prop where
  durable : w.cluster.Durable
  named : w.cluster.Named
  shaped : w.cluster.LogsShaped
  votes : w.VotesOnce
  elections : w.Elections
  sound : Sound Log.term Log.fake m
  backed : Backed Log.term m
  refines : Refines w m

theorem led_init : Led (World.init n C) (ReplicatedLog.State.init (Fin n) Log.fake) where
  durable i := Raft.durable_fresh i
  named := Cluster.named_init
  shaped := Cluster.logsShaped_init
  votes := World.votesOnce_init
  elections := World.elections_init
  sound := sound_init rfl
  backed := backed_init
  refines := refines_init

namespace Led

variable {w w' : World n C} {m : Replicas n C} {a : Action n C}

theorem owner_won (h : Led w m) {t : Nat} {i : Fin n} (ho : m.owner t = some i) : w.Won i t := by
  obtain ⟨Q, hQ, hv⟩ := h.backed.elected ho
  refine ⟨Q, hQ, fun p hp => ?_⟩
  obtain ⟨v, hpv, -⟩ := hv p hp
  exact ⟨v, h.refines.voted.mp hpv⟩

theorem won (h : Led w m) {i : Fin n} (hl : (w.rf i).state = .leader) : Won m i := by
  obtain ⟨Q, hQ, hv⟩ := h.elections.won i hl
  refine ⟨Q, hQ, fun p hp => ?_⟩
  obtain ⟨v, hpv⟩ := hv p hp
  rw [h.refines.cur]
  exact ⟨v, h.refines.voted.mpr hpv⟩

/-- A leader owns its term, or its term has no owner yet and it may claim it. -/
theorem leader_owns (h : Led w m) {i : Fin n} (hl : (w.rf i).state = .leader) :
    m.owner (m.cur i) = some i ∨ (m.owner (m.cur i) = none ∧ Won m i) := by
  cases ho : m.owner (m.cur i) with
  | none => exact Or.inr ⟨rfl, h.won hl⟩
  | some j =>
    rw [h.refines.cur] at ho
    exact Or.inl (congrArg some (h.votes.won_unique (h.owner_won ho) (h.elections.won i hl)))

theorem step (h : Led w m) (hg : Guard.Leads w.cluster a) (hs : w.step a = some w') :
    ∃ m', Relation.ReflTransGen (ReplicatedLog.Step Log.term Won) m m' ∧ Led w' m' := by
  obtain ⟨es, hstep, -⟩ := World.step_inv hs
  have hspeak : ∀ {i t l}, .spoke i t l ∈ w'.events → EventStep w.cluster a w'.cluster (.spoke i t l) →
      m.owner t = some i ∨ (m.owner t = none ∧ Won m i) := by
    intro i t l _ he
    obtain ⟨hl, rfl⟩ := he.speaker_leads hg.loopIdle.1
    have := h.leader_owns hl
    rwa [h.refines.cur] at this
  obtain ⟨m', hsteps, href⟩ := h.refines.step h.sound h.durable h.named h.shaped hspeak hg.acceptInTerm hs
  exact ⟨m', hsteps, h.durable.step hstep, h.named.step hstep, h.shaped.step h.durable hstep,
    h.votes.step h.durable hg.leaderNotAsked hg.voteOnDisk hs,
    h.elections.step h.durable h.named hg.voteCountedInTerm hg.majorityAtInstall hs,
    h.sound.steps hsteps, h.backed.steps h.sound hsteps, href⟩

/-- A message that passes the check makes the server take over what the message covers. -/
theorem accept_adopts (h : Led w m) {c : AppendCall n C} (hc : c ∈ w.cluster.appendCalls) {prevLog : Log C}
    (hprev : (w.rf c.server).log[c.args.prevLogIndex]? = some prevLog) (hprevTerm : prevLog.term = c.args.prevLogTerm)
    (hrf : w'.rf c.server = (w.rf c.server).accept c.args) :
    Adopts (covered m c.args) (m.log c.server) (w'.rf c.server).log := by
  rw [hrf, Raft.accept_log, ← h.refines.log]
  exact (h.refines.messages c hc).adopts h.sound (by rw [h.refines.log]; exact hprev) hprevTerm

end Led

theorem World.Reachable.led {w : World n C} (hw : World.Reachable Guard.Leads w) : ∃ m, Led w m := by
  refine World.Steps.keeps (I := fun w => ∃ m, Led w m) ?_ hw ⟨_, led_init⟩
  rintro w w' a ⟨m, h⟩ hg hs
  obtain ⟨m', -, h'⟩ := h.step hg hs
  exact ⟨m', h'⟩

/-! ### What a leader knows about the others -/

section Step
variable {s : Cluster n C} {a : Action n C} {i : Fin n} {rf : Raft n C}

/-- What a step may do to the `matchIndex` of a leader. -/
inductive MatchStep (s : Cluster n C) (a : Action n C) (i : Fin n) (rf : Raft n C) : Prop where
  | lost (h : rf.state ≠ .leader)
  | installed (hrf : rf = (s.peers i).rf.leader)
  | recorded {k : Nat} {c : AppendCall n C} {reply : AppendEntriesReply} (ha : a = .sendAppendEntries k)
      (hc : s.appendCalls[k]? = some c) (hi : c.caller = i) (hst : c.stage = .replied reply)
      (hsucc : reply.success = true) (hterm : c.args.term = reply.term)
      (hrf : rf = (s.peers i).rf.recordMatch c.server (c.args.prevLogIndex + c.args.entries.length))
  | kept (hterm : rf.currentTerm = (s.peers i).rf.currentTerm) (hmatch : rf.matchIndex = (s.peers i).rf.matchIndex)
      (hstate : rf.state = (s.peers i).rf.state)

theorem RfStep.matched (h : RfStep s a i rf) : MatchStep s a i rf := by
  have down : ∀ {rf : Raft n C}, rf.state = .follower → MatchStep s a i rf := by
    intro rf hf
    refine .lost ?_
    rw [hf]
    simp
  have caught : ∀ (term : Nat), MatchStep s a i ((s.peers i).rf.catchUp term) := by
    intro term
    rcases Raft.catchUp_state (s.peers i).rf term with h | h
    · exact down h
    · rw [h]
      exact .kept rfl rfl rfl
  cases h.write with
  | stand =>
    refine .lost ?_
    rw [Raft.stand_state]
    simp
  | leader => exact .installed rfl
  | @catchUp term => exact caught term
  | @vote term =>
    rcases Raft.catchUp_state (s.peers i).rf term with h | h
    · exact down h
    · rw [h]
      exact .kept rfl rfl rfl
  | stepDown => exact down rfl
  | accept => exact .kept (Raft.accept_currentTerm _ _) (Raft.accept_matchIndex _ _) (Raft.accept_state _ _)
  | recordMatch hc hi hst hterm hsucc ha => exact .recorded ha hc hi hst hsucc hterm rfl
  | crash hmake => exact down (Raft.make_me hmake).2
  | _ => exact .kept rfl rfl rfl

end Step

namespace World

/-- A successful reply of its term stands for an acknowledgement, and every match of a leader is covered by one. -/
structure Matched (w : World n C) : Prop where
  replies : ∀ c ∈ w.cluster.appendCalls, ∀ reply, c.stage = .replied reply → reply.success = true →
    c.args.term = reply.term → .accepted c.server c.args.term c.args.reach ∈ w.events
  leaders : ∀ i, (w.rf i).state = .leader → ∀ p, (w.rf i).matchIndex p = 0 ∨
    ∃ k, (w.rf i).matchIndex p ≤ k ∧ .accepted p (w.rf i).currentTerm (k + 1) ∈ w.events

theorem matched_init : (init n C).Matched where
  replies c hc := by cases hc
  leaders i h := by cases h

theorem Matched.step {w w' : World n C} {a : Action n C} (h : w.Matched) (hmatch : Guard.MatchInTerm w.cluster a)
    (hs : w.step a = some w') : w'.Matched := by
  obtain ⟨es, hstep, -⟩ := step_inv hs
  have hsub := step_events_subset hs
  constructor
  · intro c hc reply hst hsucc hterm
    cases step_appendCalls hstep hc with
    | old hold => exact hsub (h.replies c hold reply hst hsucc hterm)
    | built _ _ hsent =>
      rw [hsent] at hst
      cases hst
    | refused _ _ _ hr =>
      cases hst
      rw [hr] at hsucc
      cases hsucc
    | begun => cases hst
    | answered _ _ _ _ hes =>
      cases hst
      have hnew := hes hsucc hterm.symm
      rw [← hterm] at hnew
      exact mem_events_of_mem hstep hs hnew
    | returned => cases hst
  · intro i hl p
    -- What was matched before still stands in the history.
    have old : (w.rf i).state = .leader → (w.rf i).matchIndex p = 0 ∨
        ∃ k, (w.rf i).matchIndex p ≤ k ∧ .accepted p (w.rf i).currentTerm (k + 1) ∈ w'.events :=
      fun hl' => (h.leaders i hl' p).imp_right fun ⟨k, hk, he⟩ => ⟨k, hk, hsub he⟩
    cases (step_rf hstep i).matched with
    | lost hno => exact absurd hl hno
    | installed hrf =>
      refine Or.inl ?_
      unfold rf
      rw [hrf]
      rfl
    | @recorded k c reply ha hc hi hst hsucc hterm hrf =>
      subst ha hi
      have hrf : w'.rf c.caller = (w.rf c.caller).recordMatch c.server (c.args.prevLogIndex + c.args.entries.length) :=
        hrf
      rw [hrf, Raft.recordMatch_state] at hl
      rw [hrf, Raft.recordMatch_currentTerm, Raft.recordMatch_matchIndex]
      unfold Raft.setIndex
      split
      · rename_i hp
        subst hp
        by_cases hlt : (w.rf c.caller).matchIndex c.server < c.args.prevLogIndex + c.args.entries.length
        · have hacc := hsub (h.replies c (List.mem_of_getElem? hc) reply hst hsucc hterm)
          rw [show c.args.term = (w.rf c.caller).currentTerm from
            hmatch c hc reply (Call.reply_of_replied hst) hsucc hl hlt] at hacc
          exact Or.inr ⟨_, Nat.le_refl _, hacc⟩
        · -- A reply that does not raise the index is covered by what covered the old one.
          rcases old hl with hzero | ⟨k, hk, hacc⟩
          · exact Or.inl (by omega)
          · exact Or.inr ⟨k, by omega, hacc⟩
      · exact old hl
    | kept hterm hmatch hstate =>
      have hterm : (w'.rf i).currentTerm = (w.rf i).currentTerm := hterm
      have hmatch : (w'.rf i).matchIndex = (w.rf i).matchIndex := hmatch
      have hstate : (w'.rf i).state = (w.rf i).state := hstate
      rw [hterm, hmatch]
      exact old (hstate ▸ hl)

end World

/-! ### The invariant -/

/-- All that holds along a run that meets the conditions, with the replicas that it refines. -/
structure Agreed (w : World n C) (m : Replicas n C) : Prop extends Led w m where
  matched : w.Matched

theorem agreed_init : Agreed (World.init n C) (ReplicatedLog.State.init (Fin n) Log.fake) where
  toLed := led_init
  matched := World.matched_init

namespace Agreed

variable {w w' : World n C} {m : Replicas n C} {a : Action n C}

theorem step (h : Agreed w m) (hg : Guard.Safe w.cluster a) (hs : w.step a = some w') :
    ∃ m', Relation.ReflTransGen (ReplicatedLog.Step Log.term Won) m m' ∧ Agreed w' m' := by
  obtain ⟨m', hsteps, h'⟩ := h.toLed.step hg.toLeads hs
  exact ⟨m', hsteps, h', h.matched.step hg.matchInTerm hs⟩

theorem steps (h : Agreed w m) (hs : World.Steps Guard.Safe w w') :
    ∃ m', Relation.ReflTransGen (ReplicatedLog.Step Log.term Won) m m' ∧ Agreed w' m' := by
  induction hs with
  | refl => exact ⟨m, .refl, h⟩
  | tail _ hn ih =>
    obtain ⟨m₁, hsteps₁, h₁⟩ := ih
    obtain ⟨a, ha, hs⟩ := hn
    obtain ⟨m₂, hsteps₂, h₂⟩ := h₁.step ha hs
    exact ⟨m₂, hsteps₁.trans hsteps₂, h₂⟩

end Agreed

theorem World.Reachable.agreed {w : World n C} (hw : World.Reachable Guard.Safe w) : ∃ m, Agreed w m := by
  obtain ⟨m, -, h⟩ := agreed_init.steps hw
  exact ⟨m, h⟩

/-! ### Commitment -/

/-- A term in which somebody acknowledged an entry is owned by its leader. -/
theorem Agreed.owns_of_acked {w : World n C} {m : Replicas n C} (h : Agreed w m) {i p : Fin n}
    (hl : (w.rf i).state = .leader) {k : Nat} (hack : (p, m.cur i, k + 1) ∈ m.acked) : m.owner (m.cur i) = some i := by
  rcases h.leader_owns hl with ho | ⟨hnone, -⟩
  · exact ho
  · have hpos : 0 < m.cur i := by
      rw [h.refines.cur]
      exact h.shaped.elected i (Or.inr (Or.inr (by unfold World.rf at hl; rw [hl]; simp)))
    have hle := (h.backed.acked hack).2
    rw [h.sound.unowned _ hpos hnone] at hle
    exact absurd hle (Nat.not_succ_le_zero k)

/-- What a leader commits is committed in the replicas: the servers it counts have acknowledged it. -/
theorem Agreed.committed {w : World n C} {m : Replicas n C} (h : Agreed w m) {i : Fin n}
    (hl : (w.rf i).state = .leader) {k : Nat} (hk : 0 < k)
    (hterm : ((w.rf i).log[k]?).map Log.term = some (w.rf i).currentTerm) (hmaj : n / 2 < (w.rf i).matchNum k) :
    Committed Log.term m (m.cur i) ((w.rf i).log.take (k + 1)) := by
  obtain ⟨R, hR, hmatch⟩ := Raft.matchNum_majority hmaj
  obtain ⟨e, he, heTerm⟩ := Option.map_eq_some_iff.mp hterm
  have hlen : ((w.rf i).log.take (k + 1)).length = k + 1 := by
    have := (List.getElem?_eq_some_iff.mp he).1
    rw [List.length_take]
    omega
  have hack : ∀ p ∈ R, ∃ j, (p, m.cur i, j + 1) ∈ m.acked ∧ k + 1 ≤ j + 1 := by
    intro p hp
    have hle := hmatch p hp
    rcases h.matched.leaders i hl p with h0 | ⟨j, hj, hacc⟩
    · omega
    · rw [h.refines.cur]
      exact ⟨j, h.refines.acked.mpr hacc, by omega⟩
  have hown : m.owner (m.cur i) = some i := by
    obtain ⟨p, hp⟩ := Finset.card_pos.mp (Nat.zero_lt_of_lt hR)
    obtain ⟨j, hj, -⟩ := hack p hp
    exact h.owns_of_acked hl hj
  refine ⟨?_, ⟨(w.rf i).log.take k, e, ?_, ?_⟩, R, hR, fun p hp => ?_⟩
  · rw [← (h.sound.reigns _ i hown).2 rfl, h.refines.log]
    exact List.take_prefix _ _
  · rw [List.take_add_one, he]
    rfl
  · rw [heTerm, h.refines.cur]
  · rw [hlen]
    obtain ⟨j, hj, hkj⟩ := hack p hp
    exact ⟨j + 1, hj, hkj⟩

/-- A round of a leader loop that moves `commitIndex` commits the log up to there. -/
theorem Agreed.loop_commits {w w' : World n C} {m : Replicas n C} (h : Agreed w m) {i : Fin n}
    (hg : Guard.Safe w.cluster (.leaderLoop i)) (hs : w.step (.leaderLoop i) = some w')
    (hc : (w'.rf i).commitIndex ≠ (w.rf i).commitIndex) :
    (w'.rf i).commitIndex < (w.rf i).log.length ∧
      Committed Log.term m (m.cur i) ((w.rf i).log.take ((w'.rf i).commitIndex + 1)) := by
  obtain ⟨es, hstep, -⟩ := World.step_inv hs
  -- The peer after a round that retires or panics has the same fields.
  obtain ⟨-, -, hcases⟩ := Step.leaderLoop_inv hstep
  rcases hcases with ⟨-, hw, -⟩ | ⟨hf, calls, -, hw, -⟩ | ⟨-, calls, -, hw, -⟩
  · have hrf : w'.rf i = (w.cluster.peers i).retire.rf := World.rf_of_setPeer hw rfl
    exact absurd (congrArg Raft.commitIndex hrf) hc
  · have hrf : w'.rf i = (w.rf i).commit := World.rf_of_setPeer hw rfl
    rw [hrf] at hc ⊢
    have hl : (w.rf i).state = .leader := by
      cases hst : (w.rf i).state with
      | leader => rfl
      | candidate => exact absurd (hg.loopIdle.2 i rfl hst) hc
      | follower => exact absurd hst hf
    rw [Raft.commit_commitIndex] at hc ⊢
    rcases Raft.commitLoop_cases (w.rf i) ((w.rf i).log.length - 1) with heq | ⟨hlt, hle, hterm, hmaj⟩
    · exact absurd heq hc
    · obtain ⟨e, he, -⟩ := Option.map_eq_some_iff.mp hterm
      exact ⟨(List.getElem?_eq_some_iff.mp he).1, h.committed hl (Nat.zero_lt_of_lt hlt) hterm hmaj⟩
  · refine absurd ?_ hc
    unfold World.rf
    rw [hw, Cluster.callAppends_peers, Cluster.panic_self]
    rfl

/-- In every run that meets the conditions: once a leader loop of server `i` moves `commitIndex` to at least `k`
    while its log holds `e` at `k`, every server that leads a later term, then or afterwards, holds `e` at `k`. -/
theorem leader_completeness {w w₁ w₂ : World n C} (hw : World.Reachable Guard.Safe w) {i : Fin n}
    (hg : Guard.Safe w.cluster (.leaderLoop i)) (hs : w.step (.leaderLoop i) = some w₁)
    (hmoved : (w₁.rf i).commitIndex ≠ (w.rf i).commitIndex) {k : Nat} (hk : k ≤ (w₁.rf i).commitIndex) {e : Log C}
    (he : (w₁.rf i).log[k]? = some e) (hsteps : World.Steps Guard.Safe w₁ w₂) {j : Fin n}
    (hl : (w₂.rf j).state = .leader) (hterm : (w₁.rf i).currentTerm < (w₂.rf j).currentTerm) :
    (w₂.rf j).log[k]? = some e := by
  obtain ⟨m, h⟩ := hw.agreed
  obtain ⟨es, hstep, -⟩ := World.step_inv hs
  obtain ⟨hlen, hcom⟩ := h.loop_commits hg hs hmoved
  obtain ⟨m₂, hsteps₂, h₂⟩ := h.steps (Relation.ReflTransGen.head ⟨_, hg, hs⟩ hsteps)
  obtain ⟨hsame, hlog⟩ := loop_kept hstep (Or.inl rfl) i
  have hlater : m.cur i < m₂.cur j := by
    rw [h.refines.cur, h₂.refines.cur, ← hsame]
    exact hterm
  have hpre := (hcom.steps h.sound hsteps₂).prefix_log h₂.sound h₂.backed (h₂.won hl)
    ((h₂.leader_owns hl).symm.imp_left And.left) hlater
  rw [h₂.refines.log] at hpre
  obtain ⟨rest, hrest⟩ := hpre
  rw [hlog] at he
  rw [← hrest, List.getElem?_append_left, List.getElem?_take_of_lt (Nat.lt_succ_of_le hk)]
  · exact he
  · rw [List.length_take]
    omega

/-- Server 0 is elected in term 1 and its entry reaches server 1. -/
def replicated : List (Action 3 Nat) :=
  [.startElectionTimer 0, .candidate 0, .requestVote 0, .sendRequestVote 0, .poll 0 0, .leader 0, .start 0 (some 10),
    .leaderLoop 0, .appendEntriesTerm 0, .appendEntriesLog 0, .sendAppendEntries 0, .appendEntriesTerm 1,
    .appendEntriesLog 1, .sendAppendEntries 1]

/-- Server 1 restarts and is elected in term 2. -/
def reelected : List (Action 3 Nat) :=
  [.crash 1, .startElectionTimer 1, .candidate 1, .requestVote 3, .sendRequestVote 3, .poll 1 0, .leader 1]

theorem leader_completeness_reelected : ∃ w₂ : World 3 Nat, (w₂.rf 1).state = .leader ∧ (w₂.rf 1).currentTerm = 2 ∧
    (w₂.rf 1).log[1]? = some ⟨1, some 10⟩ := by
  obtain ⟨w, hw, h⟩ := World.exec_any Guard.Safe (World.init 3 Nat) replicated
    (fun w => decide (Guard.Safe w.cluster (.leaderLoop 0)) && (w.step (.leaderLoop 0)).any fun (w₁ : World 3 Nat) =>
      decide ((w₁.rf 0).commitIndex ≠ (w.rf 0).commitIndex ∧ 1 ≤ (w₁.rf 0).commitIndex ∧
        (w₁.rf 0).log[1]? = some (⟨1, some 10⟩ : Log Nat)) && (w₁.exec Guard.Safe reelected).any fun (w₂ : World 3 Nat) =>
          decide ((w₂.rf 1).state = .leader ∧ (w₁.rf 0).currentTerm < (w₂.rf 1).currentTerm ∧
            (w₂.rf 1).currentTerm = 2)) (by decide)
  obtain ⟨hg, h⟩ := Bool.and_eq_true_iff.mp h
  obtain ⟨w₁, hs, h⟩ := (Option.any_eq_true _ _).mp h
  obtain ⟨hc, h⟩ := Bool.and_eq_true_iff.mp h
  obtain ⟨hmoved, hk, he⟩ := of_decide_eq_true hc
  obtain ⟨w₂, hw₂, h⟩ := (Option.any_eq_true _ _).mp h
  obtain ⟨hl, hlt, hterm⟩ := of_decide_eq_true h
  exact ⟨w₂, hl, hterm, leader_completeness (World.exec_steps hw) (of_decide_eq_true hg) hs hmoved hk he
    (World.exec_steps hw₂) hl hlt⟩

/-- Two servers lead term 1 and each appends its own entry at index 1; that of server 0 reaches a majority. -/
def splitReplicated : List (Action 3 Nat) :=
  twoLeaders ++ [.start 0 (some 10), .start 2 (some 20), .leaderLoop 0, .appendEntriesTerm 0, .appendEntriesLog 0,
    .sendAppendEntries 0, .appendEntriesTerm 1, .appendEntriesLog 1, .sendAppendEntries 1]

theorem committed_entry_lost : ∃ w w₁ w₂ : World 3 Nat, World.Reachable World.Any w ∧
    w.step (.leaderLoop 0) = some w₁ ∧ (w.rf 0).commitIndex = 0 ∧ (w₁.rf 0).commitIndex = 1 ∧
    (w₁.rf 0).currentTerm = 1 ∧ (w₁.rf 0).log[1]? = some ⟨1, some 10⟩ ∧ World.Steps World.Any w₁ w₂ ∧
    (w₂.rf 2).state = .leader ∧ (w₂.rf 2).currentTerm = 2 ∧ (w₂.rf 2).log[1]? = some ⟨1, some 20⟩ := by
  obtain ⟨w, hw, h⟩ := World.exec_any World.Any (World.init 3 Nat) splitReplicated
    (fun w => decide ((w.rf 0).commitIndex = 0) && (w.step (.leaderLoop 0)).any fun (w₁ : World 3 Nat) =>
      decide ((w₁.rf 0).commitIndex = 1 ∧ (w₁.rf 0).currentTerm = 1 ∧
        (w₁.rf 0).log[1]? = some (⟨1, some 10⟩ : Log Nat)) &&
        (w₁.exec World.Any [.startElectionTimer 2, .candidate 2, .requestVote 5, .sendRequestVote 5, .poll 2 0,
          .leader 2]).any fun (w₂ : World 3 Nat) =>
            decide ((w₂.rf 2).state = .leader ∧ (w₂.rf 2).currentTerm = 2 ∧
              (w₂.rf 2).log[1]? = some (⟨1, some 20⟩ : Log Nat))) (by decide)
  obtain ⟨hc, h⟩ := Bool.and_eq_true_iff.mp h
  obtain ⟨w₁, hs, h⟩ := (Option.any_eq_true _ _).mp h
  obtain ⟨hc₁, h⟩ := Bool.and_eq_true_iff.mp h
  obtain ⟨hc₁, hterm₁, he₁⟩ := of_decide_eq_true hc₁
  obtain ⟨w₂, hw₂, h⟩ := (Option.any_eq_true _ _).mp h
  exact ⟨w, w₁, w₂, World.exec_steps hw, hs, of_decide_eq_true hc, hc₁, hterm₁, he₁, World.exec_steps hw₂,
    of_decide_eq_true h⟩

end DistributedLabs
