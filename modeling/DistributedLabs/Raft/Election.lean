import DistributedLabs.Lib.Quorum
import DistributedLabs.Raft.Calls
import DistributedLabs.Raft.Votes

/-! Elections. `voteCount` never exceeds the number of servers that voted for the candidate in its term: the
    servers of the calls that are still open have not been counted. So a leader was elected by a majority, and
    a term has one leader. -/

namespace DistributedLabs

open Quorum

variable {n : Nat} {C : Type}

/-! ### Steps of a server -/

section Step
variable {s : Cluster n C} {a : Action n C} {i : Fin n} {rf : Raft n C}

/-- What a step may do to a server's count of votes. -/
inductive TallyStep (s : Cluster n C) (a : Action n C) (i : Fin n) (rf : Raft n C) : Prop where
  | follower (h : rf.state = .follower)
  | stood {args : RequestVoteArgs n} (ha : a = .candidate i) (hc : (s.peers i).rf.candidate = some (rf, args))
  | counted {k : Nat} {c : VoteCall n} {reply : RequestVoteReply} (ha : a = .sendRequestVote k)
      (hc : s.voteCalls[k]? = some c) (hi : c.caller = i) (hst : c.stage = .replied reply)
      (hg : reply.voteGranted = true) (hterm : reply.term = c.args.term) (hrf : rf = (s.peers i).rf.countVote)
  | installed (ha : a = .leader i) (hrf : rf = (s.peers i).rf.leader)
  | kept (hterm : rf.currentTerm = (s.peers i).rf.currentTerm) (hcount : rf.voteCount = (s.peers i).rf.voteCount)
      (hstate : rf.state = (s.peers i).rf.state)

theorem RfStep.tally (h : RfStep s a i rf) : TallyStep s a i rf := by
  have caught : ∀ (term : Nat), TallyStep s a i ((s.peers i).rf.catchUp term) := by
    intro term
    rcases Raft.catchUp_state (s.peers i).rf term with h | h
    · exact .follower h
    · rw [h]
      exact .kept rfl rfl rfl
  cases h.write with
  | stand hcand ha => exact .stood ha hcand
  | leader ha => exact .installed ha rfl
  | @catchUp term => exact caught term
  | @vote term =>
    rcases Raft.catchUp_state (s.peers i).rf term with h | h
    · exact .follower h
    · rw [h]
      exact .kept rfl rfl rfl
  | stepDown => exact .follower rfl
  | countVote hc hi hst hterm hg ha => exact .counted ha hc hi hst hg hterm rfl
  | accept => exact .kept (Raft.accept_currentTerm _ _) (Raft.accept_voteCount _ _) (Raft.accept_state _ _)
  | crash hmake => exact .follower (Raft.make_me hmake).2
  | _ => exact .kept rfl rfl rfl

end Step

/-! ### The invariant -/

namespace World

/-- Server `i` got the votes of a majority in `term`. -/
def Won (w : World n C) (i : Fin n) (term : Nat) : Prop :=
  ∃ Q : Finset (Fin n), IsMajority Q ∧ ∀ p ∈ Q, ∃ log, .voted p term i log ∈ w.events

theorem Won.mono {w w' : World n C} {i : Fin n} {term : Nat} (h : w.Won i term) (he : w.events ⊆ w'.events) :
    w'.Won i term := by
  obtain ⟨Q, hQ, hv⟩ := h
  refine ⟨Q, hQ, fun p hp => ?_⟩
  obtain ⟨log, hlog⟩ := hv p hp
  exact ⟨log, he hlog⟩

/-- Two winners of a term share a voter, who voted for one candidate. -/
theorem VotesOnce.won_unique {w : World n C} (h : w.VotesOnce) {i j : Fin n} {term : Nat} (hi : w.Won i term)
    (hj : w.Won j term) : i = j := by
  obtain ⟨Q, hQ, hvQ⟩ := hi
  obtain ⟨R, hR, hvR⟩ := hj
  obtain ⟨p, hpQ, hpR⟩ := hQ.exists_common hR
  obtain ⟨_, h₁⟩ := hvQ p hpQ
  obtain ⟨_, h₂⟩ := hvR p hpR
  exact h.once h₁ h₂

/-- The votes counted by `i` in `term` are votes of the servers in `V`, none of which still has an open call. -/
structure Tally (w : World n C) (i : Fin n) (term : Nat) (V : Finset (Fin n)) : Prop where
  count : (w.rf i).voteCount ≤ V.card
  voted : ∀ p ∈ V, ∃ log, .voted p term i log ∈ w.events
  closed : ∀ c ∈ w.cluster.voteCalls, c.caller = i → c.args.term = term → c.Open → c.server ∉ V

/-- What holds of the calls for votes in any run. -/
structure Asked (w : World n C) : Prop where
  calls : ∀ c ∈ w.cluster.voteCalls, c.args.candidateID = c.caller ∧ c.args.term ≤ (w.rf c.caller).currentTerm
  granted : ∀ c ∈ w.cluster.voteCalls, ∀ reply, c.stage = .replied reply → reply.voteGranted = true →
    ∃ log, .voted c.server reply.term c.caller log ∈ w.events
  keys : (w.cluster.voteCalls.map VoteCall.key).Nodup

/-- Every candidate has a tally of its term. -/
structure Candidacies (w : World n C) : Prop extends Asked w where
  tally : ∀ i, (w.rf i).state = .candidate → ∃ V, w.Tally i (w.rf i).currentTerm V

/-- And every leader won the election of its term. -/
structure Elections (w : World n C) : Prop extends Candidacies w where
  won : ∀ i, (w.rf i).state = .leader → w.Won i (w.rf i).currentTerm

theorem asked_init : (init n C).Asked where
  calls c hc := by cases hc
  granted c hc := by cases hc
  keys := List.nodup_nil

theorem candidacies_init : (init n C).Candidacies where
  toAsked := asked_init
  tally i h := by cases h

theorem elections_init : (init n C).Elections where
  toCandidacies := candidacies_init
  won i h := by cases h

/-- A majority of counted votes is a majority of voters. -/
theorem Tally.won {w : World n C} {i : Fin n} {term : Nat} {V : Finset (Fin n)} (h : w.Tally i term V)
    (hmaj : n / 2 < (w.rf i).voteCount) : w.Won i term :=
  ⟨V, isMajority_fin.mpr (Nat.lt_of_lt_of_le hmaj h.count), h.voted⟩

section Step
variable {w w' : World n C} {a : Action n C}

theorem step_events_subset (hs : w.step a = some w') : w.events ⊆ w'.events := by
  obtain ⟨es, -, he⟩ := step_inv hs
  rw [he]
  exact List.subset_append_left _ _

theorem mem_events_of_mem {es : List (Event n C)} (hs : DistributedLabs.step w.cluster a = some (w'.cluster, es))
    (h : w.step a = some w') {e : Event n C} (he : e ∈ es) : e ∈ w'.events := by
  obtain ⟨es', hs', hw⟩ := step_inv h
  rw [hs] at hs'
  cases hs'
  rw [hw]
  exact List.mem_append_right _ (List.mem_append_right _ he)

theorem Asked.step_calls (h : w.Asked) (hd : w.cluster.Durable) (hme : w.cluster.Named)
    (hs : w.step a = some w') :
    ∀ c ∈ w'.cluster.voteCalls, c.args.candidateID = c.caller ∧ c.args.term ≤ (w'.rf c.caller).currentTerm := by
  intro c hc
  obtain ⟨es, hstep, -⟩ := step_inv hs
  rcases (step_voteCalls hstep hc).origin with ⟨d, hd', hcaller, -, hargs, -⟩ | ⟨-, -, rf, hcand, hrf, -⟩
  · obtain ⟨h₁, h₂⟩ := h.calls d hd'
    rw [hcaller, hargs] at h₁
    rw [hcaller, hargs] at h₂
    exact ⟨h₁, Nat.le_trans h₂ (step_term_le hd hstep c.caller)⟩
  · obtain ⟨_, -, rfl, hargs⟩ := Raft.candidate_inv hcand
    have hterm : (w'.rf c.caller).currentTerm = (w.rf c.caller).currentTerm + 1 := by
      unfold rf
      rw [hrf, Raft.stand_currentTerm]
    rw [hterm, hargs]
    exact ⟨hme c.caller, Nat.le_refl _⟩

theorem Asked.step_granted (h : w.Asked) (hs : w.step a = some w') :
    ∀ c ∈ w'.cluster.voteCalls, ∀ reply, c.stage = .replied reply → reply.voteGranted = true →
      ∃ log, .voted c.server reply.term c.caller log ∈ w'.events := by
  intro c hc reply hst hg
  obtain ⟨es, hstep, -⟩ := step_inv hs
  cases step_voteCalls hstep hc with
  | old hold =>
    obtain ⟨log, hlog⟩ := h.granted c hold reply hst hg
    exact ⟨log, step_events_subset hs hlog⟩
  | asked hsent =>
    rw [hsent] at hst
    cases hst
  | died => cases hst
  | @answered d _ _ hd _ _ hes =>
    cases hst
    have hvoted := hes hg
    rw [(h.calls d hd).1] at hvoted
    exact ⟨_, mem_events_of_mem hstep hs hvoted⟩
  | returned => cases hst

theorem Asked.step_keys (h : w.Asked) (hs : w.step a = some w') :
    (w'.cluster.voteCalls.map VoteCall.key).Nodup := by
  obtain ⟨es, hstep, -⟩ := step_inv hs
  rcases step_voteKeys hstep with heq | ⟨i, rf, args, hcand, heq⟩
  · rw [heq]
    exact h.keys
  · obtain ⟨_, -, -, hargs⟩ := Raft.candidate_inv hcand
    rw [heq]
    refine List.nodup_append.mpr ⟨h.keys, ?_, ?_⟩
    · refine ((List.nodup_finRange n).filter _).map fun x y hxy => ?_
      cases hxy
      rfl
    · -- The calls in the table are of terms up to the one that the new candidate leaves.
      intro x hx y hy hxy
      obtain ⟨c, hc, rfl⟩ := List.mem_map.mp hx
      obtain ⟨j, -, rfl⟩ := List.mem_map.mp hy
      have hcaller : c.caller = i := congrArg Prod.fst hxy
      have hterm : c.args.term = args.term := congrArg (fun k => k.2.1) hxy
      have hle := (h.calls c hc).2
      rw [hterm, hargs, hcaller] at hle
      exact Nat.not_succ_le_self _ hle

theorem Asked.step (h : w.Asked) (hd : w.cluster.Durable) (hme : w.cluster.Named) (hs : w.step a = some w') :
    w'.Asked := ⟨h.step_calls hd hme hs, h.step_granted hs, h.step_keys hs⟩

/-- An open call whose term its caller had reached before the step stood in the table, open. -/
theorem open_before (hs : w.step a = some w') {c : VoteCall n} (hc : c ∈ w'.cluster.voteCalls)
    (hle : c.args.term ≤ (w.rf c.caller).currentTerm) (ho : c.Open) :
    ∃ d ∈ w.cluster.voteCalls, d.caller = c.caller ∧ d.server = c.server ∧ d.args = c.args ∧ d.Open := by
  obtain ⟨es, hstep, -⟩ := step_inv hs
  rcases (step_voteCalls hstep hc).origin with ⟨d, hd, h₁, h₂, h₃, hop⟩ | ⟨-, -, rf, hcand, -, -⟩
  · exact ⟨d, hd, h₁, h₂, h₃, hop ho⟩
  · obtain ⟨_, -, -, hargs⟩ := Raft.candidate_inv hcand
    rw [hargs] at hle
    exact absurd hle (Nat.not_succ_le_self _)

/-- A tally goes on as long as term and count stay: no call of that term is added. -/
theorem Tally.keep {i : Fin n} {V : Finset (Fin n)} (ht : w.Tally i (w.rf i).currentTerm V)
    (hs : w.step a = some w') (hcount : (w'.rf i).voteCount = (w.rf i).voteCount)
    (hterm : (w'.rf i).currentTerm = (w.rf i).currentTerm) : w'.Tally i (w'.rf i).currentTerm V := by
  rw [hterm]
  refine ⟨hcount ▸ ht.count, fun p hp => ?_, fun c hc hcaller hct hopen => ?_⟩
  · obtain ⟨log, hlog⟩ := ht.voted p hp
    exact ⟨log, step_events_subset hs hlog⟩
  · subst hcaller
    obtain ⟨d, hd, h₁, h₂, h₃, hdo⟩ := open_before hs hc (Nat.le_of_eq hct) hopen
    rw [← h₂]
    exact ht.closed d hd h₁ (by rw [h₃, hct]) hdo

/-- A candidate starts with its own vote; the calls it makes go to the others. -/
theorem Asked.tally_stood (h : w.Asked) {i : Fin n} {args : RequestVoteArgs n}
    (hcand : (w.rf i).candidate = some (w'.rf i, args)) (hs : w.step (.candidate i) = some w') :
    w'.Tally i (w'.rf i).currentTerm {i} := by
  obtain ⟨es, hstep, -⟩ := step_inv hs
  obtain ⟨_, -, hrf, hargs⟩ := Raft.candidate_inv hcand
  have ht : (w'.rf i).currentTerm = (w.rf i).currentTerm + 1 := by rw [hrf, Raft.stand_currentTerm]
  refine ⟨by rw [hrf]; exact Nat.le_refl _, fun p hp => ?_, fun c hc hcaller hct _ hmem => ?_⟩
  · rw [Finset.mem_singleton.mp hp, ht]
    obtain ⟨-, -, ⟨hnone, -⟩ | ⟨rf', args', hcand', -, rfl⟩⟩ := Step.candidate_inv hstep
    · unfold rf at hcand
      rw [hcand] at hnone
      cases hnone
    · unfold rf at hcand
      rw [hcand] at hcand'
      cases hcand'
      refine ⟨(w'.rf i).log, mem_events_of_mem hstep hs (List.mem_cons_of_mem _ ?_)⟩
      rw [List.mem_singleton, hargs]
      rfl
  · rcases (step_voteCalls hstep hc).origin with ⟨d, hd', h₁, -, h₃, -⟩ | ⟨-, hne, -⟩
    · have hle := (h.calls d hd').2
      rw [h₁, h₃, hcaller, hct, ht] at hle
      exact Nat.not_succ_le_self _ hle
    · rw [Finset.mem_singleton.mp hmem, hcaller] at hne
      exact hne rfl

/-- A vote of the term is counted: its server is new in the tally, and its call is closed now. -/
theorem Asked.tally_counted (h : w.Asked) {k : Nat} {c : VoteCall n} {reply : RequestVoteReply}
    (hc : w.cluster.voteCalls[k]? = some c) (hst : c.stage = .replied reply) (hg : reply.voteGranted = true)
    (hterm : reply.term = c.args.term) (hct : c.args.term = (w.rf c.caller).currentTerm)
    (hs : w.step (.sendRequestVote k) = some w') (hrf : w'.rf c.caller = (w.rf c.caller).countVote)
    {V : Finset (Fin n)} (hV : w.Tally c.caller (w.rf c.caller).currentTerm V) :
    w'.Tally c.caller (w'.rf c.caller).currentTerm (insert c.server V) := by
  obtain ⟨es, hstep, -⟩ := step_inv hs
  have hmem := List.mem_of_getElem? hc
  have hopen : c.Open := fun r hr => by
    rw [hst] at hr
    cases hr
  have hnew : c.server ∉ V := hV.closed c hmem rfl hct hopen
  rw [hrf, Raft.countVote_currentTerm]
  refine ⟨?_, fun p hp => ?_, fun d hd hcaller hdt hdo hdm => ?_⟩
  · rw [hrf, Raft.countVote_voteCount, Finset.card_insert_of_notMem hnew]
    exact Nat.succ_le_succ hV.count
  · rcases Finset.mem_insert.mp hp with rfl | hp
    · obtain ⟨log, hlog⟩ := h.granted c hmem reply hst hg
      rw [hterm, hct] at hlog
      exact ⟨log, step_events_subset hs hlog⟩
    · obtain ⟨log, hlog⟩ := hV.voted p hp
      exact ⟨log, step_events_subset hs hlog⟩
  · rcases Finset.mem_insert.mp hdm with hsame | hdm
    · -- No other call asks this server in this term, so the open call would be the closed one.
      obtain ⟨c', reply', hc', -, -, -, -, hw⟩ := Step.sendRequestVote_inv hstep
      rw [hc] at hc'
      cases hc'
      have hcm : { c with stage := .returned reply' } ∈ w'.cluster.voteCalls := by
        rw [hw]
        exact List.mem_set (List.getElem?_eq_some_iff.mp hc).1 _
      have hkey : VoteCall.key d = VoteCall.key { c with stage := .returned reply' } := by
        unfold VoteCall.key
        rw [hcaller, hdt, hsame, ← hct]
      have heq := List.inj_on_of_nodup_map (h.step_keys hs) hd hcm hkey
      exact hdo reply' (by rw [heq])
    · obtain ⟨e, he, h₁, h₂, h₃, heo⟩ := open_before hs hd (by rw [hcaller, hdt]) hdo
      exact hV.closed e he (h₁.trans hcaller) (by rw [h₃, hdt]) heo (h₂ ▸ hdm)

theorem Candidacies.step_tally (h : w.Candidacies) (hcounted : Guard.VoteCountedInTerm w.cluster a)
    (hs : w.step a = some w') (i : Fin n) (hc : (w'.rf i).state = .candidate) :
    ∃ V, w'.Tally i (w'.rf i).currentTerm V := by
  obtain ⟨es, hstep, -⟩ := step_inv hs
  cases (step_rf hstep i).tally with
  | follower hf =>
    unfold rf at hc
    rw [hf] at hc
    cases hc
  | stood ha hcand =>
    subst ha
    exact ⟨{i}, h.tally_stood hcand hs⟩
  | @counted k c reply ha hcall hi hst hg hterm hrf =>
    subst ha hi
    have hrf : w'.rf c.caller = (w.rf c.caller).countVote := hrf
    rw [hrf, Raft.countVote_state] at hc
    obtain ⟨V, hV⟩ := h.tally c.caller hc
    have hsame := hcounted c hcall reply (Call.reply_of_replied hst) hg hc
    exact ⟨_, h.tally_counted hcall hst hg hterm hsame hs hrf hV⟩
  | installed _ hrf =>
    have hrf : w'.rf i = (w.rf i).leader := hrf
    rw [hrf] at hc
    cases hc
  | kept hterm hcount hstate =>
    have hstate : (w'.rf i).state = (w.rf i).state := hstate
    obtain ⟨V, hV⟩ := h.tally i (hstate ▸ hc)
    exact ⟨V, hV.keep hs hcount hterm⟩

theorem Candidacies.step (h : w.Candidacies) (hd : w.cluster.Durable) (hme : w.cluster.Named)
    (hcounted : Guard.VoteCountedInTerm w.cluster a) (hs : w.step a = some w') : w'.Candidacies where
  toAsked := h.toAsked.step hd hme hs
  tally := h.step_tally hcounted hs

theorem Elections.step_won (h : w.Elections) (hinstall : Guard.MajorityAtInstall w.cluster a)
    (hs : w.step a = some w') (i : Fin n) (hl : (w'.rf i).state = .leader) : w'.Won i (w'.rf i).currentTerm := by
  obtain ⟨es, hstep, -⟩ := step_inv hs
  -- Leading on in the same term.
  have on : (w.rf i).state = .leader → (w'.rf i).currentTerm = (w.rf i).currentTerm → w'.Won i (w'.rf i).currentTerm := by
    intro hl' ht
    rw [ht]
    exact (h.won i hl').mono (step_events_subset hs)
  cases (step_rf hstep i).tally with
  | follower hfol =>
    unfold rf at hl
    rw [hfol] at hl
    cases hl
  | stood _ hcand =>
    obtain ⟨_, -, hrf, -⟩ := Raft.candidate_inv hcand
    unfold rf at hl
    rw [hrf] at hl
    cases hl
  | counted _ _ _ _ _ _ hrf =>
    have hrf : w'.rf i = (w.rf i).countVote := hrf
    rw [hrf] at hl
    exact on hl (by rw [hrf]; rfl)
  | installed ha hrf =>
    subst ha
    have hrf : w'.rf i = (w.rf i).leader := hrf
    obtain ⟨hf, hmaj⟩ := hinstall i rfl
    have hf : (w.rf i).state ≠ .follower := hf
    -- A server that leads already has won its term; a candidate wins it by its tally.
    cases hst : (w.rf i).state with
    | leader => exact on hst (by rw [hrf]; rfl)
    | candidate =>
      obtain ⟨V, hV⟩ := h.tally i hst
      rw [hrf]
      exact (hV.won hmaj).mono (step_events_subset hs)
    | follower => exact absurd hst hf
  | kept hterm _ hstate =>
    have hstate : (w'.rf i).state = (w.rf i).state := hstate
    exact on (hstate ▸ hl) hterm

theorem Elections.step (h : w.Elections) (hd : w.cluster.Durable) (hme : w.cluster.Named)
    (hcounted : Guard.VoteCountedInTerm w.cluster a) (hinstall : Guard.MajorityAtInstall w.cluster a)
    (hs : w.step a = some w') : w'.Elections where
  toCandidacies := h.toCandidacies.step hd hme hcounted hs
  won := h.step_won hinstall hs

end Step

theorem Reachable.elections {P : Cluster n C → Action n C → Prop} {w : World n C} (hw : Reachable P w)
    (hcounted : ∀ s a, P s a → Guard.VoteCountedInTerm s a) (hinstall : ∀ s a, P s a → Guard.MajorityAtInstall s a) :
    w.Elections := by
  refine Reachable.keeps ?_ hw elections_init
  intro w w' a hw h ha hs
  exact h.step hw.durable hw.named (hcounted _ _ ha) (hinstall _ _ ha) hs

end World

/-! ### One leader per term -/

/-- The conditions on elections in a run without crashes: a leader is not asked for a second vote of its term,
    a vote is counted in its term, and `leader()` begins with a majority. -/
def Guard.Elects (s : Cluster n C) (a : Action n C) : Prop :=
  NoCrash a ∧ LeaderNotAsked s a ∧ VoteCountedInTerm s a ∧ MajorityAtInstall s a

instance (s : Cluster n C) (a : Action n C) : Decidable (Guard.Elects s a) :=
  inferInstanceAs (Decidable (_ ∧ _ ∧ _ ∧ _))

theorem Guard.Elects.voteOnDisk {s : Cluster n C} {a : Action n C} (h : Guard.Elects s a) : Guard.VoteOnDisk s a := by
  intro i hi
  rw [h.1] at hi
  cases hi

/-- In every run without crashes that meets these conditions: a server that leads a term now and one that leads
    the same term now or later are the same server. -/
theorem election_safety {w w' : World n C} (hw : World.Reachable Guard.Elects w) (hs : World.Steps Guard.Elects w w')
    {i j : Fin n} {term : Nat} (hi : (w.rf i).state = .leader ∧ (w.rf i).currentTerm = term)
    (hj : (w'.rf j).state = .leader ∧ (w'.rf j).currentTerm = term) : i = j := by
  have hw' : World.Reachable Guard.Elects w' := Relation.ReflTransGen.trans hw hs
  have won : ∀ {w : World n C}, World.Reachable Guard.Elects w → ∀ {i : Fin n},
      (w.rf i).state = .leader ∧ (w.rf i).currentTerm = term → w.Won i term := by
    intro w hw i hi
    rw [← hi.2]
    exact (hw.elections (fun _ _ h => h.2.2.1) (fun _ _ h => h.2.2.2)).won i hi.1
  exact (hw'.votesOnce (fun _ _ h => h.2.1) (fun _ _ h => h.voteOnDisk)).won_unique
    ((won hw hi).mono (World.Steps.events hs).subset) (won hw' hj)

/-- Server 1 elects server 0, whose request of the next term it grants as well. -/
def electedTwice : List (Action 3 Nat) :=
  [.startElectionTimer 0, .candidate 0, .requestVote 0, .sendRequestVote 0, .poll 0 0, .leader 0,
    .startElectionTimer 0, .candidate 0, .requestVote 2, .sendRequestVote 2, .poll 0 0, .leader 0]

theorem election_safety_elected : ∃ w, (World.init 3 Nat).exec Guard.Elects electedTwice = some w ∧
    (w.rf 0).state = .leader ∧ (w.rf 0).currentTerm = 2 ∧
    ∀ j, (w.rf j).state = .leader → (w.rf j).currentTerm = 2 → 0 = j := by
  obtain ⟨w, hw, h⟩ := World.exec_any Guard.Elects (World.init 3 Nat) electedTwice
    (fun w => decide ((w.rf 0).state = .leader ∧ (w.rf 0).currentTerm = 2)) (by decide)
  have h := of_decide_eq_true h
  refine ⟨w, hw, h.1, h.2, fun j hj hterm => ?_⟩
  exact election_safety (World.exec_steps hw) Relation.ReflTransGen.refl h ⟨hj, hterm⟩

/-- Servers 0 and 2 stand for term 1; server 1 elects server 0, which then votes for server 2. -/
def twoLeaders : List (Action 3 Nat) :=
  leaderVotes ++ [.sendRequestVote 2, .poll 2 0, .leader 2]

theorem two_leaders_of_term_one : ∃ w : World 3 Nat, World.Reachable (fun _ a => Guard.NoCrash a) w ∧
    (w.rf 0).state = .leader ∧ (w.rf 0).currentTerm = 1 ∧ (w.rf 2).state = .leader ∧ (w.rf 2).currentTerm = 1 := by
  obtain ⟨w, hw, h⟩ := World.exec_any (fun _ a => Guard.NoCrash a) (World.init 3 Nat) twoLeaders
    (fun w => decide ((w.rf 0).state = .leader ∧ (w.rf 0).currentTerm = 1 ∧ (w.rf 2).state = .leader ∧
      (w.rf 2).currentTerm = 1)) (by decide)
  exact ⟨w, World.exec_steps hw, of_decide_eq_true h⟩

end DistributedLabs
