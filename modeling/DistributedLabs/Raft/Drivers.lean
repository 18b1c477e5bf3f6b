import DistributedLabs.Raft.Terms

/-! The goroutines that drive a server: its election timers, its elections and its leader loops. `candidate()` starts a
    timer and nothing stops it when the election is won, so a leader keeps one, or a call of `candidate()` that waits
    to begin. A second timer comes from `follower()`, which an election or a leadership that finds the server to be a
    follower starts beside the timer that still runs. -/

namespace DistributedLabs

variable {n : Nat} {C : Type}

/-! ### The condition -/

/-- The elections and leaderships of a server that have not ended. -/
def Peer.running (p : Peer n C) : Nat := p.polling.length + p.starting + p.leaders

namespace Action

/-- The server that a request reaches in the action, and the term of the request. -/
def request (s : Cluster n C) : Action n C → Option (Fin n × Nat)
  | .requestVote k => (s.voteCalls[k]?).map fun c => (c.server, c.args.term)
  | .appendEntriesTerm k => (s.appendCalls[k]?).map fun c => (c.server, c.args.term)
  | _ => none

/-- The server whose election timer fires. -/
def timesOut : Action n C → Option (Fin n)
  | .startElectionTimer i => some i
  | _ => none

end Action

/-- No request of a higher term reaches a server while an election or a leadership of it runs. -/
def Guard.NotOvertaken (s : Cluster n C) (a : Action n C) : Prop :=
  ∀ r ∈ a.request s, (s.peers r.1).rf.currentTerm < r.2 → (s.peers r.1).running = 0

/-- Nor does its election timer fire. -/
structure Guard.Undisturbed (s : Cluster n C) (a : Action n C) : Prop where
  notOvertaken : NotOvertaken s a
  timer : ∀ i ∈ a.timesOut, (s.peers i).running = 0

instance (s : Cluster n C) (a : Action n C) : Decidable (Guard.NotOvertaken s a) :=
  inferInstanceAs (Decidable (∀ r ∈ a.request s, _))

instance (s : Cluster n C) (a : Action n C) : Decidable (Guard.Undisturbed s a) :=
  decidable_of_iff (Guard.NotOvertaken s a ∧ ∀ i ∈ a.timesOut, (s.peers i).running = 0)
    ⟨fun ⟨h₁, h₂⟩ => ⟨h₁, h₂⟩, fun ⟨h₁, h₂⟩ => ⟨h₁, h₂⟩⟩

/-! ### The invariants -/

/-- One goroutine leads to the next election, and a follower runs neither an election nor a leadership. -/
structure Peer.Timed (p : Peer n C) : Prop where
  pending : p.timers + p.candidates = 1
  active : 0 < p.running → p.rf.state ≠ .follower

/-- And at most one election or leadership runs; while it does, no further election waits to begin. -/
structure Peer.Driven (p : Peer n C) : Prop extends p.Timed where
  once : p.running ≤ 1
  waiting : 0 < p.candidates → p.running = 0
  leads : p.rf.state = .leader → 0 < p.leaders

theorem Peer.driven_boot {i : Fin n} {persister : Persister C} {rf : Raft n C} (h : Raft.make i persister = some rf)
    (epoch : Nat) : (Peer.boot rf epoch).Driven where
  pending := rfl
  active hrun := absurd hrun (Nat.lt_irrefl 0)
  once := Nat.zero_le 1
  waiting _ := rfl
  leads hl := by
    rw [show (Peer.boot rf epoch).rf.state = _ from (Raft.make_me h).2] at hl
    cases hl

theorem Peer.running_win {p : Peer n C} {k term : Nat} (hk : p.polling[k]? = some term) :
    (p.win k).running = p.running := by
  have hlt := (List.getElem?_eq_some_iff.mp hk).1
  simp only [Peer.running, Peer.win_polling, Peer.win_starting, Peer.win_leaders, List.length_eraseIdx_of_lt hlt]
  omega

theorem Peer.running_giveUp (p : Peer n C) (k : Nat) : (p.giveUp k).running ≤ p.running := by
  have hlen := List.length_eraseIdx_le p.polling k
  simp only [Peer.running, Peer.giveUp_polling, Peer.giveUp_starting, Peer.giveUp_leaders]
  omega

theorem Peer.running_lead {p : Peer n C} (hk : 0 < p.starting) : p.lead.running = p.running := by
  simp only [Peer.running, Peer.lead_polling, Peer.lead_starting, Peer.lead_leaders]
  omega

theorem Raft.follower_of_poll {rf : Raft n C} {term : Nat} (h : rf.poll term = .follows) : rf.state = .follower := by
  unfold Raft.poll at h
  split at h
  · cases h
  · split at h
    · assumption
    · split at h <;> cases h

/-- No election ends because the server has become a follower. -/
theorem Peer.Timed.not_follows {p : Peer n C} (h : p.Timed) {k term : Nat} (hk : p.polling[k]? = some term) :
    p.rf.poll term ≠ .follows := by
  intro hp
  have hlt := (List.getElem?_eq_some_iff.mp hk).1
  refine h.active ?_ (Raft.follower_of_poll hp)
  unfold Peer.running
  omega

/-- Nor does a leadership. -/
theorem Peer.Timed.not_follower {p : Peer n C} (h : p.Timed) (hk : 0 < p.leaders) : p.rf.state ≠ .follower := by
  refine h.active ?_
  unfold Peer.running
  omega

section Step
variable {s : Cluster n C} {a : Action n C} {i : Fin n} {p : Peer n C}

/-- A server that catches up with a request and becomes a follower by it has got a higher term. -/
theorem Raft.lt_of_catchUp_follower {rf : Raft n C} {term : Nat} (hle : rf.currentTerm ≤ term)
    (h : (rf.catchUp term).state = .follower) : rf.state = .follower ∨ rf.currentTerm < term := by
  rcases Nat.lt_or_eq_of_le hle with hlt | heq
  · exact Or.inr hlt
  · rw [Raft.catchUp_of_le (Nat.le_of_eq heq.symm)] at h
    exact Or.inl h

/-- Only a request of a higher term makes a server a follower, unless it restarts: a reply that passes the filter of
    its handler has the term of the call, which the caller has reached. -/
theorem RfStep.follower {rf : Raft n C} (h : RfStep s a i rf)
    (hvotes : ∀ c ∈ s.voteCalls, c.args.term ≤ (s.peers c.caller).rf.currentTerm)
    (happends : ∀ c ∈ s.appendCalls, c.args.term ≤ (s.peers c.caller).rf.currentTerm) (hcrash : a ≠ .crash i)
    (hf : rf.state = .follower) :
    (s.peers i).rf.state = .follower ∨ ∃ t, a.request s = some (i, t) ∧ (s.peers i).rf.currentTerm < t := by
  have asked : ∀ {t : Nat}, a.request s = some (i, t) → (s.peers i).rf.currentTerm ≤ t →
      ((s.peers i).rf.catchUp t).state = .follower →
      (s.peers i).rf.state = .follower ∨ ∃ t, a.request s = some (i, t) ∧ (s.peers i).rf.currentTerm < t :=
    fun ha hle hst => (Raft.lt_of_catchUp_follower hle hst).imp_right fun hlt => ⟨_, ha, hlt⟩
  cases h with
  | same | commit | apply => exact Or.inl hf
  | candidate hcand =>
    obtain ⟨_, -, rfl, -⟩ := Raft.candidate_inv hcand
    cases hf
  | leader => cases hf
  | start command =>
    by_cases hl : (s.peers i).rf.state = .leader
    · rw [Raft.start_of_leader hl] at hf
      exact Or.inl hf
    · rw [Raft.start_of_not_leader hl] at hf
      exact Or.inl hf
  | @requestVote k c _ _ hc hi h ha =>
    subst ha hi
    have hask : (Action.requestVote k : Action n C).request s = some (c.server, c.args.term) :=
      congrArg (Option.map _) hc
    rcases Raft.requestVote_inv h with ⟨-, rfl, -⟩ | ⟨hle, rfl, -⟩ | ⟨hle, -, -, rfl, -⟩
    · exact Or.inl hf
    · exact asked hask hle hf
    · exact asked hask hle hf
  | @sendRequestVote k c reply hc hi hst =>
    subst hi
    have hle := hvotes c (List.mem_of_getElem? hc)
    rcases Raft.sendRequestVote_cases (s.peers c.caller).rf c.args reply with h | ⟨hterm, hlt, -⟩ | ⟨-, -, -, h⟩
    · exact Or.inl (h ▸ hf)
    · omega
    · rw [h] at hf
      exact Or.inl hf
  | @appendEntriesTerm k c _ _ hc hi h ha =>
    subst ha hi
    rcases Raft.appendEntriesTerm_inv h with ⟨-, rfl, -⟩ | ⟨hle, rfl, -⟩
    · exact Or.inl hf
    · exact asked (congrArg (Option.map _) hc) hle hf
  | appendEntriesLog _ _ _ h =>
    rcases (Raft.appendEntriesLog_inv h).2 with ⟨-, rfl⟩ | ⟨-, -, ⟨-, rfl⟩ | ⟨-, rfl⟩⟩
    · exact Or.inl hf
    · exact Or.inl hf
    · rw [Raft.accept_state] at hf
      exact Or.inl hf
  | @sendAppendEntries k c reply hc hi hst =>
    subst hi
    have hle := happends c (List.mem_of_getElem? hc)
    rcases Raft.sendAppendEntries_cases (s.peers c.caller).rf c.server c.args reply with
      ⟨-, h⟩ | ⟨hterm, hlt, -⟩ | ⟨-, -, -, h⟩ | ⟨-, -, -, h⟩
    · exact Or.inl (h ▸ hf)
    · omega
    · rw [h] at hf
      exact Or.inl hf
    · rw [h] at hf
      exact Or.inl hf
  | crash _ ha => exact absurd ha hcrash

theorem World.Reached.timed {w : World n C} (hr : w.Reached) (h : PeerMove w.cluster a i p)
    (hg : Guard.NotOvertaken w.cluster a) (hi : (w.cluster.peers i).Timed) : p.Timed := by
  have hpending := hi.pending
  cases h with
  | same => exact hi
  | panic | quiet => exact ⟨hi.pending, hi.active⟩
  | fields h _ hcrash =>
    refine ⟨hi.pending, fun hrun hf => ?_⟩
    rcases h.follower (fun c hc => (hr.asked.calls c hc).2) hr.appends hcrash hf with hold | ⟨t, ha, hlt⟩
    · exact hi.active hrun hold
    · exact absurd (hg _ ha hlt) (Nat.ne_of_gt hrun)
  | fire _ ht =>
    refine ⟨?_, hi.active⟩
    rw [Peer.fire_timers, Peer.fire_candidates]
    omega
  | stand h _ hk =>
    -- The timer that the election starts replaces it as what leads to the next.
    obtain ⟨_, -, rfl, -⟩ := Raft.candidate_inv h
    refine ⟨?_, fun _ => nofun⟩
    rw [Peer.stand_timers, Peer.stand_candidates]
    omega
  | win hk => exact ⟨hi.pending, fun hrun => hi.active (Peer.running_win hk ▸ hrun)⟩
  | follow hk hp => exact absurd hp (hi.not_follows hk)
  | giveUp => exact ⟨hi.pending, fun hrun => hi.active (Nat.lt_of_lt_of_le hrun (Peer.running_giveUp _ _))⟩
  | lead => exact ⟨hi.pending, fun _ => nofun⟩
  | retire _ hf hk => exact absurd hf (hi.not_follower hk)
  | boot h => exact (Peer.driven_boot h _).toTimed

theorem World.Reached.driven {w : World n C} (hr : w.Reached) (h : PeerMove w.cluster a i p)
    (hg : Guard.Undisturbed w.cluster a) (hi : (w.cluster.peers i).Driven) : p.Driven := by
  have htimed := hr.timed h hg.notOvertaken hi.toTimed
  have hpending := hi.pending
  cases h with
  | same => exact hi
  | panic | quiet => exact ⟨htimed, hi.once, hi.waiting, hi.leads⟩
  | fields _ hstate =>
    refine ⟨htimed, hi.once, hi.waiting, fun hl => ?_⟩
    rcases hstate with hf | hsame
    · rw [Peer.withRf_rf, hf] at hl
      cases hl
    · exact hi.leads (hsame ▸ hl)
  | fire ha =>
    subst ha
    have hidle : (w.cluster.peers i).running = 0 := hg.timer i rfl
    exact ⟨htimed, hi.once, fun _ => hidle, hi.leads⟩
  | stand h ha hk =>
    -- The election that begins is the only one.
    obtain ⟨_, -, rfl, -⟩ := Raft.candidate_inv h
    have hidle := hi.waiting hk
    unfold Peer.running at hidle
    refine ⟨htimed, ?_, fun hk' => ?_, nofun⟩
    · simp only [Peer.running, Peer.stand_polling, Peer.stand_starting, Peer.stand_leaders, List.length_append,
        List.length_singleton]
      omega
    · rw [Peer.stand_candidates] at hk'
      omega
  | win hk =>
    refine ⟨htimed, ?_, ?_, hi.leads⟩ <;> rw [Peer.running_win hk]
    · exact hi.once
    · exact hi.waiting
  | follow hk hp => exact absurd hp (hi.not_follows hk)
  | @giveUp k =>
    have hle := Peer.running_giveUp (w.cluster.peers i) k
    refine ⟨htimed, Nat.le_trans hle hi.once, fun hk => ?_, hi.leads⟩
    exact Nat.le_zero.mp (hi.waiting hk ▸ hle)
  | lead _ hk =>
    refine ⟨htimed, ?_, ?_, fun _ => Nat.succ_pos _⟩ <;> rw [Peer.running_lead hk]
    · exact hi.once
    · exact hi.waiting
  | retire _ hf hk => exact absurd hf (hi.not_follower hk)
  | boot h => exact Peer.driven_boot h _

/-- The goroutines that lead to the next election are never all gone. -/
theorem PeerMove.election_pending (h : PeerMove s a i p) (hi : 0 < (s.peers i).timers + (s.peers i).candidates) :
    0 < p.timers + p.candidates := by
  cases h with
  | fire _ ht =>
    rw [Peer.fire_timers, Peer.fire_candidates]
    omega
  | stand =>
    rw [Peer.stand_timers]
    omega
  | follow =>
    rw [Peer.follow_timers]
    omega
  | retire =>
    rw [Peer.retire_timers]
    omega
  | boot => exact Nat.one_pos
  | _ => exact hi

end Step

namespace World

variable {w : World n C}

/-- Every server, a leader included, has a running timer or a call of `candidate()` that waits to begin. -/
theorem Reachable.election_pending {P : Cluster n C → Action n C → Prop} (hw : Reachable P w) (i : Fin n) :
    0 < (w.cluster.peers i).timers + (w.cluster.peers i).candidates := by
  refine Steps.keeps (I := fun w => 0 < (w.cluster.peers i).timers + (w.cluster.peers i).candidates) ?_ hw Nat.one_pos
  intro w w' a hi _ hs
  obtain ⟨es, hstep, -⟩ := step_inv hs
  exact (step_move hstep i).election_pending hi

theorem Reachable.timed (hw : Reachable Guard.NotOvertaken w) (i : Fin n) : (w.cluster.peers i).Timed := by
  refine Reachable.keeps (I := fun w => (w.cluster.peers i).Timed) ?_ hw ?_
  · intro w w' a hw hi hg hs
    obtain ⟨es, hstep, -⟩ := step_inv hs
    exact hw.reached.timed (step_move hstep i) hg hi
  · exact ⟨rfl, fun hrun => absurd hrun (Nat.lt_irrefl 0)⟩

theorem Reachable.driven (hw : Reachable Guard.Undisturbed w) (i : Fin n) : (w.cluster.peers i).Driven := by
  refine Reachable.keeps (I := fun w => (w.cluster.peers i).Driven) ?_ hw ?_
  · intro w w' a hw hi hg hs
    obtain ⟨es, hstep, -⟩ := step_inv hs
    exact hw.reached.driven (step_move hstep i) hg hi
  · exact ⟨⟨rfl, fun hrun => absurd hrun (Nat.lt_irrefl 0)⟩, Nat.zero_le 1, fun _ => rfl, nofun⟩

/-! ### The election of a leader -/

/-- The timer of server `i` fires, or its `candidate()` begins. -/
def OwnElection (i : Fin n) (_ : Cluster n C) (a : Action n C) : Prop := a = .startElectionTimer i ∨ a = .candidate i

theorem step_of_cluster {a : Action n C} {s : Cluster n C} {es : List (Event n C)}
    (h : DistributedLabs.step w.cluster a = some (s, es)) : ∃ w', w.step a = some w' ∧ w'.cluster = s := by
  unfold step
  rw [h]
  exact ⟨_, rfl, rfl⟩

/-- A `candidate()` that waits on a live server can begin, whatever the server has become in the meantime. -/
theorem stands_next {i : Fin n} (hlive : (w.cluster.peers i).panicked = false) (hk : 0 < (w.cluster.peers i).candidates)
    (hlog : 0 < (w.rf i).log.length) : ∃ w', w.step (.candidate i) = some w' ∧ (w'.rf i).state = .candidate ∧
      (w'.rf i).currentTerm = (w.rf i).currentTerm + 1 := by
  obtain ⟨lastLog, hlast⟩ : ∃ lastLog, (w.rf i).log.getLast? = some lastLog :=
    ⟨_, List.getLast?_eq_some_getLast (List.ne_nil_of_length_pos hlog)⟩
  have hcand : (w.rf i).candidate = some ((w.rf i).stand, ⟨(w.rf i).currentTerm + 1, (w.rf i).me,
      (w.rf i).log.length - 1, lastLog.term⟩) := by
    unfold Raft.candidate
    simp [hlast]
  have hstep : DistributedLabs.step w.cluster (.candidate i) = some _ :=
    show Step.candidate w.cluster i = _ by
      unfold Step.candidate
      rw [if_neg (by simp [hlive, Nat.ne_of_gt hk]), show (w.cluster.peers i).rf.candidate = _ from hcand]
  obtain ⟨w', hs, hw'⟩ := step_of_cluster hstep
  have hrf : w'.rf i = (w.rf i).stand := rf_of_setPeer hw' rfl
  exact ⟨w', hs, by rw [hrf]; rfl, by rw [hrf]; rfl⟩

/-- A live server with a timer or a waiting `candidate()` can go on to the next election without any other server. -/
theorem stands_by_itself {i : Fin n} (hlive : (w.cluster.peers i).panicked = false)
    (hpending : 0 < (w.cluster.peers i).timers + (w.cluster.peers i).candidates) (hlog : 0 < (w.rf i).log.length) :
    ∃ w', Steps (OwnElection i) w w' ∧ (w'.rf i).state = .candidate ∧
      (w'.rf i).currentTerm = (w.rf i).currentTerm + 1 := by
  by_cases hk : 0 < (w.cluster.peers i).candidates
  · obtain ⟨w', hs, hafter⟩ := stands_next hlive hk hlog
    exact ⟨w', .single ⟨_, Or.inr rfl, hs⟩, hafter⟩
  · have ht : (w.cluster.peers i).timers ≠ 0 := by omega
    have hstep : DistributedLabs.step w.cluster (.startElectionTimer i) = some _ :=
      show Step.startElectionTimer w.cluster i = _ by
        unfold Step.startElectionTimer
        rw [if_neg (by simp [hlive, ht])]
    obtain ⟨w₁, hs₁, hw₁⟩ := step_of_cluster hstep
    have hpeer : w₁.cluster.peers i = (w.cluster.peers i).fire := by rw [hw₁, Cluster.setPeer_self]
    have hrf : w₁.rf i = w.rf i := (congrArg Peer.rf hpeer).trans (Peer.fire_rf _)
    obtain ⟨w', hs, hafter⟩ := stands_next (w := w₁) (i := i) (by rw [hpeer]; exact hlive)
      (by rw [hpeer]; exact Nat.succ_pos _) (by rw [hrf]; exact hlog)
    rw [hrf] at hafter
    exact ⟨w', .tail (.single ⟨_, Or.inl rfl, hs₁⟩) ⟨_, Or.inr rfl, hs⟩, hafter⟩

end World

/-- An election without any delay. -/
def winsInTime : List (Action 3 Nat) :=
  [.startElectionTimer 0, .candidate 0, .requestVote 0, .sendRequestVote 0, .poll 0 0, .leader 0]

end DistributedLabs
