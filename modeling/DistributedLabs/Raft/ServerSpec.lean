import DistributedLabs.Raft.Server

/-! One description per critical section: which fields it writes, with which values, and when. -/

namespace DistributedLabs

variable {n : Nat} {C : Type}

namespace Raft

variable {rf rf' : Raft n C}

/-! ### Terms -/

theorem catchUp_of_lt {term : Nat} (h : rf.currentTerm < term) :
    rf.catchUp term = { rf with currentTerm := term, state := .follower, votedFor := -1 }.persist := if_pos h

theorem catchUp_of_le {term : Nat} (h : term ≤ rf.currentTerm) : rf.catchUp term = rf := if_neg (Nat.not_lt.mpr h)

theorem catchUp_currentTerm {term : Nat} (h : rf.currentTerm ≤ term) : (rf.catchUp term).currentTerm = term := by
  rcases Nat.lt_or_eq_of_le h with h | rfl
  · rw [catchUp_of_lt h, persist_currentTerm]
  · rw [catchUp_of_le (Nat.le_refl _)]

theorem catchUp_state (rf : Raft n C) (term : Nat) : (rf.catchUp term).state = .follower ∨ rf.catchUp term = rf := by
  unfold catchUp
  split
  · exact Or.inl rfl
  · exact Or.inr rfl

/-- Fields that the second rule leaves alone. -/
theorem catchUp_kept (rf : Raft n C) (term : Nat) :
    (rf.catchUp term).me = rf.me ∧ (rf.catchUp term).log = rf.log ∧
      (rf.catchUp term).commitIndex = rf.commitIndex ∧ (rf.catchUp term).lastApplied = rf.lastApplied ∧
      (rf.catchUp term).nextIndex = rf.nextIndex ∧ (rf.catchUp term).matchIndex = rf.matchIndex ∧
      (rf.catchUp term).voteCount = rf.voteCount := by
  unfold catchUp
  split <;> exact ⟨rfl, rfl, rfl, rfl, rfl, rfl, rfl⟩

@[simp] theorem catchUp_me (rf : Raft n C) (term : Nat) : (rf.catchUp term).me = rf.me := (catchUp_kept rf term).1

@[simp] theorem catchUp_log (rf : Raft n C) (term : Nat) : (rf.catchUp term).log = rf.log :=
  (catchUp_kept rf term).2.1

@[simp] theorem catchUp_commitIndex (rf : Raft n C) (term : Nat) :
    (rf.catchUp term).commitIndex = rf.commitIndex := (catchUp_kept rf term).2.2.1

@[simp] theorem catchUp_nextIndex (rf : Raft n C) (term : Nat) :
    (rf.catchUp term).nextIndex = rf.nextIndex := (catchUp_kept rf term).2.2.2.2.1

@[simp] theorem catchUp_matchIndex (rf : Raft n C) (term : Nat) :
    (rf.catchUp term).matchIndex = rf.matchIndex := (catchUp_kept rf term).2.2.2.2.2.1

@[simp] theorem catchUp_voteCount (rf : Raft n C) (term : Nat) :
    (rf.catchUp term).voteCount = rf.voteCount := (catchUp_kept rf term).2.2.2.2.2.2

/-! ### Elections -/

theorem candidate_inv {args : RequestVoteArgs n} (h : rf.candidate = some (rf', args)) :
    ∃ lastLog, rf.log.getLast? = some lastLog ∧ rf' = rf.stand ∧
      args = ⟨rf.currentTerm + 1, rf.me, rf.log.length - 1, lastLog.term⟩ := by
  unfold candidate at h
  dsimp only at h
  split at h
  · cases h
  · rename_i lastLog hlast
    cases h
    exact ⟨lastLog, hlast, rfl, rfl⟩

theorem poll_wins {term : Nat} : rf.poll term = .wins ↔ n / 2 < rf.voteCount := by
  unfold poll
  split
  · simp [*]
  · split
    · simp [*]
    · split <;> simp [*]

/-- The candidate described by `args` is at least as up to date as `log`: what the handler checks. -/
def UpToDate (args : RequestVoteArgs n) (log : List (Log C)) : Prop :=
  ∃ lastLog, log.getLast? = some lastLog ∧
    (lastLog.term < args.lastLogTerm ∨
      (lastLog.term = args.lastLogTerm ∧ log.length - 1 ≤ args.lastLogIndex))

/-- A request of an old term is refused; otherwise the term is caught up, and the vote is given only by a
    server that holds no vote and only to a candidate that is up to date. -/
theorem requestVote_inv {args : RequestVoteArgs n} {reply : RequestVoteReply}
    (h : rf.requestVote args = some (rf', reply)) :
    (args.term < rf.currentTerm ∧ rf' = rf ∧ reply = ⟨rf.currentTerm, false⟩) ∨
    (rf.currentTerm ≤ args.term ∧ rf' = rf.catchUp args.term ∧ reply = ⟨args.term, false⟩) ∨
    (rf.currentTerm ≤ args.term ∧ (rf.catchUp args.term).votedFor = -1 ∧ UpToDate args rf.log ∧
      rf' = (rf.catchUp args.term).vote args.candidateID ∧ reply = ⟨args.term, true⟩) := by
  unfold requestVote at h
  split at h
  · rename_i hlt
    cases h
    exact Or.inl ⟨hlt, rfl, rfl⟩
  · rename_i hge
    have hge := Nat.not_lt.mp hge
    refine Or.inr ?_
    dsimp only at h
    rw [catchUp_currentTerm hge, catchUp_log] at h
    split at h
    · cases h
      exact Or.inl ⟨hge, rfl, rfl⟩
    · rename_i hv
      split at h
      · cases h
      · rename_i lastLog hlast
        split at h
        · cases h
          exact Or.inl ⟨hge, rfl, rfl⟩
        · rename_i hup
          cases h
          exact Or.inr ⟨hge, not_not.mp hv, ⟨lastLog, hlast, by omega⟩, rfl, rfl⟩

/-- A reply is dropped, makes the server step down, is counted as a vote, or changes nothing. -/
theorem sendRequestVote_cases (rf : Raft n C) (args : RequestVoteArgs n) (reply : RequestVoteReply) :
    rf.sendRequestVote args reply = rf ∨
    (reply.term = args.term ∧ rf.currentTerm < reply.term ∧
      rf.sendRequestVote args reply = rf.stepDown reply.term) ∨
    (reply.term = args.term ∧ reply.term ≤ rf.currentTerm ∧ reply.voteGranted = true ∧
      rf.sendRequestVote args reply = rf.countVote) := by
  unfold sendRequestVote
  split
  · exact Or.inl rfl
  · rename_i hterm
    have hterm := not_not.mp hterm
    split
    · rename_i hlt
      exact Or.inr (Or.inl ⟨hterm, hlt, rfl⟩)
    · rename_i hle
      split
      · rename_i hg
        exact Or.inr (Or.inr ⟨hterm, Nat.not_lt.mp hle, hg, rfl⟩)
      · exact Or.inl rfl

/-! ### The leader -/

theorem startHeartBeat_inv {args : AppendEntriesArgs n C} (h : rf.startHeartBeat = some args) :
    ∃ lastLog, rf.log.getLast? = some lastLog ∧
      args = ⟨rf.currentTerm, rf.me, rf.log.length - 1, lastLog.term, [], rf.commitIndex⟩ := by
  unfold startHeartBeat at h
  split at h
  · cases h
  · rename_i lastLog hlast
    cases h
    exact ⟨lastLog, hlast, rfl⟩

/-- A message built from `log`: its entries are what follows `prevLogIndex` there. -/
def BuiltFrom (rf : Raft n C) (args : AppendEntriesArgs n C) : Prop :=
  ∃ prevLog, rf.log[args.prevLogIndex]? = some prevLog ∧
    args = ⟨rf.currentTerm, rf.me, args.prevLogIndex, prevLog.term, rf.log.drop (args.prevLogIndex + 1),
      rf.commitIndex⟩

theorem startHeartBeat_built {args : AppendEntriesArgs n C} (h : rf.startHeartBeat = some args) :
    rf.BuiltFrom args := by
  obtain ⟨lastLog, hlast, rfl⟩ := startHeartBeat_inv h
  have hne : rf.log ≠ [] := by
    intro h0
    simp [h0] at hlast
  have hlen : 0 < rf.log.length := List.length_pos_iff.mpr hne
  refine ⟨lastLog, ?_, ?_⟩
  · rw [← List.getLast?_eq_getElem?]
    exact hlast
  · have hdrop : rf.log.drop (rf.log.length - 1 + 1) = [] := List.drop_eq_nil_of_le (by omega)
    simp only [hdrop]

theorem replicationArgs_built {args : AppendEntriesArgs n C} {index : Nat}
    (h : rf.replicationArgs index = some args) : index = args.prevLogIndex + 1 ∧ rf.BuiltFrom args := by
  cases index with
  | zero => cases h
  | succ prev =>
    unfold replicationArgs at h
    dsimp only at h
    split at h
    · cases h
    · rename_i prevLog hprev
      cases h
      exact ⟨rfl, prevLog, hprev, rfl⟩

theorem replicate_built {servers : List (Fin n)} {calls : List (Fin n × AppendEntriesArgs n C)} {ok : Bool}
    (h : rf.replicate servers = (calls, ok)) : ∀ c ∈ calls, rf.BuiltFrom c.2 := by
  induction servers generalizing calls ok with
  | nil =>
    cases h
    intro c hc
    cases hc
  | cons server servers ih =>
    unfold replicate at h
    split at h
    · split at h
      · cases h
        intro c hc
        cases hc
      · rename_i args hargs
        cases h
        intro c hc
        rcases List.mem_cons.mp hc with rfl | hc
        · exact (replicationArgs_built hargs).2
        · exact ih rfl c hc
    · exact ih h

/-- A round that builds a message finds a peer whose `nextIndex` lies inside the log. -/
theorem replicate_exists {servers : List (Fin n)} {calls : List (Fin n × AppendEntriesArgs n C)} {ok : Bool}
    (h : rf.replicate servers = (calls, ok)) (hne : calls ≠ []) : ∃ p, rf.nextIndex p < rf.log.length := by
  induction servers with
  | nil =>
    cases h
    exact absurd rfl hne
  | cons server servers ih =>
    unfold replicate at h
    split at h
    · exact ⟨server, by assumption⟩
    · exact ih h

theorem BuiltFrom.term {args : AppendEntriesArgs n C} (h : rf.BuiltFrom args) : args.term = rf.currentTerm := by
  obtain ⟨_, -, h⟩ := h
  rw [h]

theorem BuiltFrom.leaderCommit {args : AppendEntriesArgs n C} (h : rf.BuiltFrom args) :
    args.leaderCommit = rf.commitIndex := by
  obtain ⟨_, -, h⟩ := h
  rw [h]

theorem BuiltFrom.entries {args : AppendEntriesArgs n C} (h : rf.BuiltFrom args) :
    args.entries = rf.log.drop (args.prevLogIndex + 1) := by
  obtain ⟨_, -, h⟩ := h
  rw [h]

theorem BuiltFrom.prevLog {args : AppendEntriesArgs n C} (h : rf.BuiltFrom args) :
    ∃ prevLog, rf.log[args.prevLogIndex]? = some prevLog ∧ prevLog.term = args.prevLogTerm := by
  obtain ⟨prevLog, hprev, h⟩ := h
  exact ⟨prevLog, hprev, by rw [h]⟩

/-- The commit loop leaves `commitIndex`, or moves it to an entry of the current term that more than half
    of the peers match. -/
theorem commitLoop_cases (rf : Raft n C) (m : Nat) :
    rf.commitLoop m = rf.commitIndex ∨
      (rf.commitIndex < rf.commitLoop m ∧ rf.commitLoop m ≤ m ∧
        (rf.log[rf.commitLoop m]?).map Log.term = some rf.currentTerm ∧ n / 2 < rf.matchNum (rf.commitLoop m)) := by
  induction m with
  | zero => exact Or.inl rfl
  | succ m ih =>
    by_cases hc : m + 1 ≤ rf.commitIndex
    · exact Or.inl (by rw [commitLoop, if_pos hc])
    · by_cases hm : (rf.log[m + 1]?).map Log.term = some rf.currentTerm ∧ n / 2 < rf.matchNum (m + 1)
      · have heq : rf.commitLoop (m + 1) = m + 1 := by rw [commitLoop, if_neg hc, if_pos hm]
        rw [heq]
        exact Or.inr ⟨Nat.lt_of_not_le hc, Nat.le_refl _, hm.1, hm.2⟩
      · have heq : rf.commitLoop (m + 1) = rf.commitLoop m := by rw [commitLoop, if_neg hc, if_neg hm]
        rw [heq]
        rcases ih with ih | ⟨h1, h2, h3, h4⟩
        · exact Or.inl ih
        · exact Or.inr ⟨h1, Nat.le_succ_of_le h2, h3, h4⟩

theorem start_of_leader {command : Option C} (h : rf.state = .leader) :
    rf.start command = (rf.appendCommand command, rf.log.length, rf.currentTerm, true) := by
  simp [start, h]

theorem start_of_not_leader {command : Option C} (h : rf.state ≠ .leader) :
    rf.start command = (rf, rf.log.length, rf.currentTerm, false) := by
  simp [start, h]

/-! ### Replication -/

/-- The first section refuses an old term, or catches up and goes on. -/
theorem appendEntriesTerm_inv {args : AppendEntriesArgs n C} {reply : Option AppendEntriesReply}
    (h : rf.appendEntriesTerm args = (rf', reply)) :
    (args.term < rf.currentTerm ∧ rf' = rf ∧ reply = some { term := rf.currentTerm, success := false }) ∨
    (rf.currentTerm ≤ args.term ∧ rf' = rf.catchUp args.term ∧ reply = none) := by
  unfold appendEntriesTerm at h
  split at h
  · rename_i hlt
    cases h
    exact Or.inl ⟨hlt, rfl, rfl⟩
  · rename_i hge
    cases h
    exact Or.inr ⟨Nat.not_lt.mp hge, rfl, rfl⟩

/-- A message that passes the consistency check. -/
def Consistent (rf : Raft n C) (args : AppendEntriesArgs n C) : Prop :=
  (rf.log[args.prevLogIndex]?).map Log.term = some args.prevLogTerm

instance (rf : Raft n C) (args : AppendEntriesArgs n C) : Decidable (rf.Consistent args) :=
  inferInstanceAs (Decidable (_ = some args.prevLogTerm))

theorem consistent_of_prevLog {args : AppendEntriesArgs n C} {prevLog : Log C}
    (hprev : rf.log[args.prevLogIndex]? = some prevLog) (hterm : prevLog.term = args.prevLogTerm) :
    rf.Consistent args := by
  unfold Consistent
  rw [hprev, ← hterm]
  rfl

/-- The second section fails the consistency check and changes nothing, or passes it: then a heartbeat
    still changes nothing and entries are taken over. -/
theorem appendEntriesLog_inv {args : AppendEntriesArgs n C} {reply : AppendEntriesReply}
    (h : rf.appendEntriesLog args = (rf', reply)) :
    reply.term = rf.currentTerm ∧
      ((reply.success = false ∧ rf' = rf) ∨
       (reply.success = true ∧
        (∃ prevLog, rf.log[args.prevLogIndex]? = some prevLog ∧ prevLog.term = args.prevLogTerm) ∧
        ((args.entries = [] ∧ rf' = rf) ∨ (args.entries ≠ [] ∧ rf' = rf.accept args)))) := by
  unfold appendEntriesLog at h
  split at h
  · cases h
    exact ⟨rfl, Or.inl ⟨rfl, rfl⟩⟩
  · rename_i prevLog hprev
    split at h
    · cases h
      exact ⟨rfl, Or.inl ⟨rfl, rfl⟩⟩
    · rename_i hterm
      have hterm := not_not.mp hterm
      dsimp only at h
      split at h
      · rename_i hnil
        cases h
        exact ⟨rfl, Or.inr ⟨rfl, ⟨prevLog, hprev, hterm⟩, Or.inl ⟨hnil, rfl⟩⟩⟩
      · rename_i hne
        cases h
        exact ⟨rfl, Or.inr ⟨rfl, ⟨prevLog, hprev, hterm⟩, Or.inr ⟨hne, rfl⟩⟩⟩

/-- Fields that taking entries over leaves alone, and the new log. -/
theorem accept_fields (rf : Raft n C) (args : AppendEntriesArgs n C) :
    (rf.accept args).me = rf.me ∧ (rf.accept args).state = rf.state ∧
      (rf.accept args).currentTerm = rf.currentTerm ∧ (rf.accept args).votedFor = rf.votedFor ∧
      (rf.accept args).log = acceptEntries rf.log args.prevLogIndex args.entries ∧
      (rf.accept args).lastApplied = rf.lastApplied ∧ (rf.accept args).matchIndex = rf.matchIndex ∧
      (rf.accept args).voteCount = rf.voteCount ∧ (rf.accept args).nextIndex = rf.nextIndex := by
  unfold accept
  dsimp only
  split <;> exact ⟨rfl, rfl, rfl, rfl, rfl, rfl, rfl, rfl, rfl⟩

@[simp] theorem accept_me (rf : Raft n C) (args : AppendEntriesArgs n C) : (rf.accept args).me = rf.me :=
  (accept_fields rf args).1

@[simp] theorem accept_state (rf : Raft n C) (args : AppendEntriesArgs n C) : (rf.accept args).state = rf.state :=
  (accept_fields rf args).2.1

@[simp] theorem accept_currentTerm (rf : Raft n C) (args : AppendEntriesArgs n C) :
    (rf.accept args).currentTerm = rf.currentTerm := (accept_fields rf args).2.2.1

@[simp] theorem accept_votedFor (rf : Raft n C) (args : AppendEntriesArgs n C) :
    (rf.accept args).votedFor = rf.votedFor := (accept_fields rf args).2.2.2.1

@[simp] theorem accept_log (rf : Raft n C) (args : AppendEntriesArgs n C) :
    (rf.accept args).log = acceptEntries rf.log args.prevLogIndex args.entries := (accept_fields rf args).2.2.2.2.1

@[simp] theorem accept_matchIndex (rf : Raft n C) (args : AppendEntriesArgs n C) :
    (rf.accept args).matchIndex = rf.matchIndex := (accept_fields rf args).2.2.2.2.2.2.1

@[simp] theorem accept_voteCount (rf : Raft n C) (args : AppendEntriesArgs n C) :
    (rf.accept args).voteCount = rf.voteCount := (accept_fields rf args).2.2.2.2.2.2.2.1

@[simp] theorem accept_nextIndex (rf : Raft n C) (args : AppendEntriesArgs n C) :
    (rf.accept args).nextIndex = rf.nextIndex := (accept_fields rf args).2.2.2.2.2.2.2.2

@[simp] theorem accept_lastApplied (rf : Raft n C) (args : AppendEntriesArgs n C) :
    (rf.accept args).lastApplied = rf.lastApplied := (accept_fields rf args).2.2.2.2.2.1

theorem accept_commitIndex (rf : Raft n C) (args : AppendEntriesArgs n C) :
    (rf.accept args).commitIndex = rf.commitIndex ∨ (rf.commitIndex < args.leaderCommit ∧
      (rf.accept args).commitIndex = min args.leaderCommit (args.prevLogIndex + args.entries.length)) := by
  unfold accept
  dsimp only
  split
  · exact Or.inr ⟨‹_›, rfl⟩
  · exact Or.inl rfl

/-- The whole handler refuses an old term at once; otherwise it catches up and runs its second section. -/
theorem appendEntries_inv {args : AppendEntriesArgs n C} {reply : AppendEntriesReply}
    (h : rf.appendEntries args = (rf', reply)) :
    (args.term < rf.currentTerm ∧ rf' = rf ∧ reply.success = false) ∨
    (rf.currentTerm ≤ args.term ∧ (rf.catchUp args.term).appendEntriesLog args = (rf', reply)) := by
  unfold appendEntries at h
  split at h
  · rename_i rf₁ reply₁ hterm
    cases h
    rcases appendEntriesTerm_inv hterm with ⟨hlt, rfl, hr⟩ | ⟨-, -, hr⟩
    · cases hr
      exact Or.inl ⟨hlt, rfl, rfl⟩
    · cases hr
  · rename_i rf₁ hterm
    rcases appendEntriesTerm_inv hterm with ⟨-, -, hr⟩ | ⟨hle, rfl, -⟩
    · cases hr
    · exact Or.inr ⟨hle, h⟩

/-! ### Roll back -/

/-- A refusal reports that the log is too short, or the conflicting term with the first index of its run. -/
theorem appendEntriesLog_refused {args : AppendEntriesArgs n C} {reply : AppendEntriesReply}
    (h : rf.appendEntriesLog args = (rf', reply)) (hr : reply.success = false) :
    (rf.log.length ≤ args.prevLogIndex ∧ reply.conflictIndex = 0 ∧ reply.logLen = rf.log.length - 1) ∨
    ∃ prevLog, rf.log[args.prevLogIndex]? = some prevLog ∧ prevLog.term ≠ args.prevLogTerm ∧
      reply.conflictTerm = prevLog.term ∧
      reply.conflictIndex = conflictIndex rf.log prevLog.term args.prevLogIndex := by
  unfold appendEntriesLog at h
  split at h
  · rename_i hnone
    cases h
    exact Or.inl ⟨List.getElem?_eq_none_iff.mp hnone, rfl, rfl⟩
  · rename_i prevLog hprev
    split at h
    · rename_i hterm
      cases h
      exact Or.inr ⟨prevLog, hprev, hterm, rfl, rfl⟩
    · dsimp only at h
      split at h <;> cases h <;> cases hr

/-- The scan for the start of a run finds it, since the log does not begin with that term. -/
theorem conflictIndex_bounds {log : List (Log C)} {term : Nat} (hstart : (log[0]?).map Log.term ≠ some term) {i : Nat}
    (hi : 0 < i) : 0 < conflictIndex log term i ∧ conflictIndex log term i ≤ i := by
  induction i with
  | zero => exact absurd hi (Nat.lt_irrefl 0)
  | succ i ih =>
    unfold conflictIndex
    split
    · rename_i hterm
      have hpos : 0 < i := Nat.pos_of_ne_zero fun h0 => hstart (h0 ▸ hterm)
      exact ⟨(ih hpos).1, Nat.le_succ_of_le (ih hpos).2⟩
    · exact ⟨Nat.succ_pos i, Nat.le_refl _⟩

theorem lastOfTerm_some {log : List (Log C)} {term i j : Nat} (h : lastOfTerm log term i = some j) :
    0 < j ∧ (log[j]?).map Log.term = some term := by
  induction i with
  | zero => cases h
  | succ i ih =>
    unfold lastOfTerm at h
    split at h
    · rename_i hterm
      cases h
      exact ⟨Nat.succ_pos i, hterm⟩
    · exact ih h

/-- Where replication to a peer goes on after a refusal. -/
def rollback (rf : Raft n C) (reply : AppendEntriesReply) : Nat :=
  if reply.conflictIndex = 0 then reply.logLen
  else match lastOfTerm rf.log reply.conflictTerm (rf.log.length - 1) with
    | some i => i + 1
    | none => reply.conflictIndex

/-- It is the length reported, just after an entry of the conflicting term, or the conflict reported. -/
theorem rollback_cases (rf : Raft n C) (reply : AppendEntriesReply) :
    (reply.conflictIndex = 0 ∧ rf.rollback reply = reply.logLen) ∨
    (reply.conflictIndex ≠ 0 ∧ ∃ i, 0 < i ∧ (rf.log[i]?).map Log.term = some reply.conflictTerm ∧
      rf.rollback reply = i + 1) ∨
    (reply.conflictIndex ≠ 0 ∧ rf.rollback reply = reply.conflictIndex) := by
  unfold rollback
  split
  · exact Or.inl ⟨‹_›, rfl⟩
  · rename_i hne
    refine Or.inr ?_
    split
    · rename_i i hi
      obtain ⟨hpos, hterm⟩ := lastOfTerm_some hi
      exact Or.inl ⟨hne, i, hpos, hterm, rfl⟩
    · exact Or.inr ⟨hne, rfl⟩

/-- A reply is dropped, makes the server step down, records a match, or moves `nextIndex` back. -/
theorem sendAppendEntries_cases (rf : Raft n C) (server : Fin n) (args : AppendEntriesArgs n C)
    (reply : AppendEntriesReply) :
    (args.term ≠ reply.term ∧ rf.sendAppendEntries server args reply = rf) ∨
    (args.term = reply.term ∧ rf.currentTerm < reply.term ∧
      rf.sendAppendEntries server args reply = rf.stepDown reply.term) ∨
    (args.term = reply.term ∧ reply.term ≤ rf.currentTerm ∧ reply.success = true ∧
      rf.sendAppendEntries server args reply =
        rf.recordMatch server (args.prevLogIndex + args.entries.length)) ∨
    (args.term = reply.term ∧ reply.term ≤ rf.currentTerm ∧ reply.success = false ∧
      rf.sendAppendEntries server args reply = rf.moveNext server (rf.rollback reply)) := by
  unfold sendAppendEntries
  split
  · exact Or.inl ⟨‹_›, rfl⟩
  · rename_i hterm
    have hterm := not_not.mp hterm
    refine Or.inr ?_
    split
    · rename_i hlt
      exact Or.inl ⟨hterm, hlt, rfl⟩
    · rename_i hle
      have hle := Nat.not_lt.mp hle
      refine Or.inr ?_
      split
      · rename_i hs
        exact Or.inl ⟨hterm, hle, hs, rfl⟩
      · rename_i hs
        refine Or.inr ⟨hterm, hle, by simpa using hs, ?_⟩
        unfold rollback
        split
        · rfl
        · cases lastOfTerm rf.log reply.conflictTerm (rf.log.length - 1) <;> rfl

/-! ### The applier -/

/-- Every message of the applier reports an entry of the log at its index, and the indices run from the
    one after `lastApplied` up. -/
theorem applyLoop_mem {log : List (Log C)} {lastApplied k : Nat} {msg : ApplyMsg C}
    (h : msg ∈ (applyLoop log lastApplied k).1) :
    ∃ entry, log[msg.commandIndex]? = some entry ∧ msg.command = entry.command ∧
      lastApplied < msg.commandIndex ∧ msg.commandIndex ≤ lastApplied + k := by
  induction k generalizing lastApplied with
  | zero => cases h
  | succ k ih =>
    unfold applyLoop at h
    split at h
    · cases h
    · rename_i entry hentry
      rcases List.mem_cons.mp h with rfl | h
      · exact ⟨entry, hentry, rfl, Nat.lt_succ_self _, by dsimp only; omega⟩
      · obtain ⟨e, he, hc, hlt, hle⟩ := ih h
        exact ⟨e, he, hc, by omega, by omega⟩

end Raft

end DistributedLabs
