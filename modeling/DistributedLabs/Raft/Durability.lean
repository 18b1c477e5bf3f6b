import DistributedLabs.Raft.World

/-! Stable storage holds the term and the log that memory holds: every section that writes one of them
    persists before it unlocks. So a restart loses neither, and a term never goes back. -/

namespace DistributedLabs

variable {n : Nat} {C : Type}

namespace Raft

/-- The persister restores the term and the log of the peer: it holds them, with some vote, or it holds
    nothing and they are still those of a fresh peer. -/
def Durable (rf : Raft n C) : Prop :=
  (rf.persister.raftstate = [] ∧ rf.currentTerm = 0 ∧ rf.log = [⟨0, none⟩]) ∨
    ∃ votedFor, rf.persister.raftstate = [.int rf.currentTerm, .int votedFor, .logs rf.log]

variable {rf rf' : Raft n C}

theorem durable_fresh (me : Fin n) : (fresh me makePersister : Raft n C).Durable := Or.inl ⟨rfl, rfl, rfl⟩

theorem durable_persist (rf : Raft n C) : rf.persist.Durable := Or.inr ⟨rf.votedFor, rfl⟩

theorem Durable.of_eq (h : rf.Durable) (hp : rf'.persister = rf.persister) (ht : rf'.currentTerm = rf.currentTerm)
    (hl : rf'.log = rf.log) : rf'.Durable := by
  unfold Durable
  rw [hp, ht, hl]
  exact h

/-- What `Make` reads back from a state that `persist` wrote. -/
theorem make_saved {me : Fin n} {p : Persister C} {term : Nat} {votedFor : Int} {log : List (Log C)}
    (h : p.raftstate = [.int term, .int votedFor, .logs log]) :
    make me p = some { fresh me p with currentTerm := term, votedFor, log } := by
  simp [make, readPersist, h, decodeLoop, decodeState, decodeInt, decodeLogs]

theorem make_empty {me : Fin n} {p : Persister C} (h : p.raftstate = []) : make me p = some (fresh me p) := by
  simp [make, readPersist, h]

theorem make_me {me : Fin n} {p : Persister C} {rf : Raft n C} (h : make me p = some rf) :
    rf.me = me ∧ rf.state = .follower := by
  unfold make readPersist at h
  split at h
  · cases h
    exact ⟨rfl, rfl⟩
  · split at h
    · cases h
    · cases h
      exact ⟨rfl, rfl⟩

theorem Durable.make (h : rf.Durable) (me : Fin n) :
    ∃ rf', Raft.make me rf.persister = some rf' ∧ rf'.persister = rf.persister ∧
      rf'.currentTerm = rf.currentTerm ∧ rf'.log = rf.log := by
  rcases h with ⟨hp, ht, hl⟩ | ⟨votedFor, hp⟩
  · exact ⟨_, make_empty hp, rfl, ht.symm, hl.symm⟩
  · exact ⟨_, make_saved hp, rfl, rfl, rfl⟩

theorem Durable.restored (h : rf.Durable) {me : Fin n} (hm : Raft.make me rf.persister = some rf') :
    rf'.persister = rf.persister ∧ rf'.currentTerm = rf.currentTerm ∧ rf'.log = rf.log := by
  obtain ⟨rf₁, h₁, h₂⟩ := h.make me
  rw [hm] at h₁
  cases h₁
  exact h₂

theorem Durable.catchUp (h : rf.Durable) (term : Nat) : (rf.catchUp term).Durable := by
  unfold Raft.catchUp
  split
  · exact durable_persist _
  · exact h

theorem durable_accept (rf : Raft n C) (args : AppendEntriesArgs n C) : (rf.accept args).Durable := by
  unfold accept
  dsimp only
  split
  · exact (durable_persist _).of_eq rfl rfl rfl
  · exact durable_persist _

end Raft

/-! ### One step of a server -/

section Step
variable {s : Cluster n C} {a : Action n C} {i : Fin n} {rf : Raft n C}

/-- Whatever a step does to a server, memory and stable storage agree afterwards. -/
theorem RfStep.durable (h : RfStep s a i rf) (hd : (s.peers i).rf.Durable) : rf.Durable := by
  cases h.write with
  | same => exact hd
  | stand => exact (Raft.durable_persist _).of_eq rfl rfl rfl
  | leader => exact hd.of_eq rfl rfl rfl
  | commit => exact hd.of_eq rfl rfl rfl
  | append => exact Raft.durable_persist _
  | catchUp => exact hd.catchUp _
  | vote => exact (hd.catchUp _).of_eq rfl rfl rfl
  | stepDown => exact (Raft.durable_persist _).of_eq rfl rfl rfl
  | countVote => exact hd.of_eq rfl rfl rfl
  | accept => exact Raft.durable_accept _ _
  | recordMatch => exact hd.of_eq rfl rfl rfl
  | moveNext => exact hd.of_eq rfl rfl rfl
  | apply => exact hd.of_eq rfl rfl rfl
  | crash hmake =>
    obtain ⟨hp, ht, hl⟩ := hd.restored hmake
    exact hd.of_eq hp ht hl

/-- No step of a server lowers its term, a restart included. -/
theorem RfStep.term_le (h : RfStep s a i rf) (hd : (s.peers i).rf.Durable) :
    (s.peers i).rf.currentTerm ≤ rf.currentTerm := by
  cases h.write with
  | stand => exact Nat.le_succ _
  | catchUp hle =>
    rw [Raft.catchUp_currentTerm hle]
    exact hle
  | vote hle =>
    rw [Raft.vote_currentTerm, Raft.catchUp_currentTerm hle]
    exact hle
  | stepDown hlt => exact Nat.le_of_lt hlt
  | accept => rw [Raft.accept_currentTerm]
  | crash hmake => exact Nat.le_of_eq (hd.restored hmake).2.1.symm
  | _ => exact Nat.le_refl _

theorem RfStep.me (h : RfStep s a i rf) (hme : (s.peers i).rf.me = i) : rf.me = i := by
  cases h.write with
  | catchUp => rwa [Raft.catchUp_me]
  | vote => rwa [Raft.vote_me, Raft.catchUp_me]
  | accept => rwa [Raft.accept_me]
  | crash hmake => exact (Raft.make_me hmake).1
  | _ => exact hme

/-- Only an accepted `Start` and an accepted `AppendEntries` write the log. -/
theorem RfStep.log_kept (h : RfStep s a i rf) (hd : (s.peers i).rf.Durable)
    (hstart : ∀ command, a = .start i command → (s.peers i).rf.state ≠ .leader)
    (haccept : ∀ k, a ≠ .appendEntriesLog k) : rf.log = (s.peers i).rf.log := by
  cases h.write with
  | append command hl ha => exact absurd hl (hstart command ha)
  | catchUp => exact Raft.catchUp_log _ _
  | vote => exact Raft.catchUp_log _ _
  | accept _ _ _ _ _ ha => exact absurd ha (haccept _)
  | crash hmake => exact (hd.restored hmake).2.2
  | _ => rfl

end Step

/-! ### Runs -/

/-- Every server of a cluster knows its own index. -/
def Cluster.Named (s : Cluster n C) : Prop := ∀ i, (s.peers i).rf.me = i

theorem Cluster.named_init : (Cluster.init n C).Named := fun _ => rfl

theorem Cluster.Named.step {s s' : Cluster n C} {a : Action n C} {es : List (Event n C)} (h : s.Named)
    (hs : DistributedLabs.step s a = some (s', es)) : s'.Named := fun i => (step_rf hs i).me (h i)

/-- Every server of a cluster is durable. -/
def Cluster.Durable (s : Cluster n C) : Prop := ∀ i, (s.peers i).rf.Durable

theorem Cluster.Durable.step {s s' : Cluster n C} {a : Action n C} {es : List (Event n C)} (h : s.Durable)
    (hs : DistributedLabs.step s a = some (s', es)) : s'.Durable :=
  fun i => (step_rf hs i).durable (h i)

theorem step_term_le {s s' : Cluster n C} {a : Action n C} {es : List (Event n C)} (h : s.Durable)
    (hs : step s a = some (s', es)) (i : Fin n) :
    (s.peers i).rf.currentTerm ≤ (s'.peers i).rf.currentTerm := (step_rf hs i).term_le (h i)

namespace World

variable {P : Cluster n C → Action n C → Prop} {w w' : World n C}

theorem Steps.durable (hs : Steps P w w') (h : w.cluster.Durable) : w'.cluster.Durable := by
  refine Steps.keeps (I := fun w => w.cluster.Durable) ?_ hs h
  intro w w' a h _ hs
  obtain ⟨es, hs, -⟩ := step_inv hs
  exact h.step hs

theorem Reachable.durable (hw : Reachable P w) : w.cluster.Durable :=
  Steps.durable hw fun i => Raft.durable_fresh i

theorem Reachable.named (hw : Reachable P w) : w.cluster.Named := by
  refine Steps.keeps (I := fun w => w.cluster.Named) ?_ hw Cluster.named_init
  intro w w' a h _ hs
  obtain ⟨es, hs, -⟩ := step_inv hs
  exact h.step hs

theorem Steps.term_le (hs : Steps P w w') (h : w.cluster.Durable) (i : Fin n) :
    (w.rf i).currentTerm ≤ (w'.rf i).currentTerm := by
  induction hs with
  | refl => exact Nat.le_refl _
  | tail hs hn ih =>
    obtain ⟨a, -, hstep⟩ := hn
    obtain ⟨es, hstep, -⟩ := step_inv hstep
    exact Nat.le_trans ih (step_term_le (Steps.durable hs h) hstep i)

end World

/-- In every state of every run, what `Make` would read back from the persister of a server is the term and
    the log that the server holds in memory; its term never decreases from there on, in this incarnation or
    a later one; and a restart keeps its whole log. -/
theorem term_and_log_durable {w : World n C} (hw : World.Reachable World.Any w) (i : Fin n) :
    (∃ rf, Raft.make i (w.rf i).persister = some rf ∧ rf.currentTerm = (w.rf i).currentTerm ∧
      rf.log = (w.rf i).log) ∧
    (∀ w', World.Steps World.Any w w' → (w.rf i).currentTerm ≤ (w'.rf i).currentTerm) ∧
    (∀ w', w.step (.crash i) = some w' → (w'.rf i).currentTerm = (w.rf i).currentTerm ∧
      (w'.rf i).log = (w.rf i).log) := by
  have hd := hw.durable
  refine ⟨?_, fun w' hs => World.Steps.term_le hs hd i, ?_⟩
  · obtain ⟨rf, hm, -, ht, hl⟩ := (hd i).make i
    exact ⟨rf, hm, ht, hl⟩
  · intro w' hs
    obtain ⟨es, hs, -⟩ := World.step_inv hs
    obtain ⟨rf, hm, hs', -⟩ := Step.crash_inv hs
    have hrf : w'.rf i = rf := World.rf_of_setPeer hs' rfl
    rw [hrf]
    exact ((hd i).restored hm).2

/-- Server 1 takes an entry of the leader of term 1 and restarts; the next leader, in term 2, is server 1, and it accepts
    a command of its own. -/
def restarted : List (Action 3 Nat) :=
  [.startElectionTimer 0, .candidate 0, .requestVote 0, .sendRequestVote 0, .poll 0 0, .leader 0, .start 0 (some 10),
    .leaderLoop 0, .appendEntriesTerm 1, .appendEntriesLog 1, .crash 1, .startElectionTimer 1, .candidate 1,
    .requestVote 3, .sendRequestVote 3, .poll 1 0, .leader 1, .start 1 (some 20)]

theorem term_and_log_durable_restarted : ∃ w w' : World 3 Nat, w.step (.crash 1) = some w' ∧
    (w.rf 1).log = [⟨0, none⟩, ⟨1, some 10⟩, ⟨2, some 20⟩] ∧
    (∃ rf : Raft 3 Nat, Raft.make 1 (w.rf 1).persister = some rf ∧ rf.currentTerm = (w.rf 1).currentTerm ∧
      rf.log = (w.rf 1).log) ∧
    (w'.rf 1).currentTerm = (w.rf 1).currentTerm ∧ (w'.rf 1).log = (w.rf 1).log := by
  obtain ⟨w, hw, h⟩ := World.exec_any World.Any (World.init 3 Nat) restarted
    (fun w => decide ((w.rf 1).log = [⟨0, none⟩, ⟨1, some 10⟩, ⟨2, some 20⟩]) && (w.step (.crash 1)).isSome) (by decide)
  obtain ⟨hlog, h⟩ := Bool.and_eq_true_iff.mp h
  obtain ⟨w', hs⟩ := Option.isSome_iff_exists.mp h
  obtain ⟨hmake, -, hcrash⟩ := term_and_log_durable (World.exec_steps hw) 1
  exact ⟨w, w', hs, of_decide_eq_true hlog, hmake, hcrash w' hs⟩

end DistributedLabs
