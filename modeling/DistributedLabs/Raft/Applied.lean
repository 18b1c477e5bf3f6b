import DistributedLabs.Raft.StateMachine

/-! What the servers send on their `applyCh`s, incarnation by incarnation. Each incarnation numbers its messages from 1
    without a gap, and the commands of all incarnations of all servers are first parts of one sequence. -/

namespace DistributedLabs

open ReplicatedLog

variable {n : Nat} {C : Type}

/-! ### The messages of each incarnation -/

/-- The messages that the incarnations of server `i` have sent, the current one first, after one more event. `Make`
    gets a new `applyCh` at each restart. -/
def record (i : Fin n) (sent : List (List (ApplyMsg C))) : Event n C → List (List (ApplyMsg C))
  | .applied j msg => if j = i then sent.modifyHead (· ++ [msg]) else sent
  | .acted j (.crash _) => if j = i then [] :: sent else sent
  | _ => sent

/-- The messages that the incarnations of server `i` sent in a run, the current one first. -/
def World.sent (w : World n C) (i : Fin n) : List (List (ApplyMsg C)) := w.events.foldl (record i) [[]]

section Record
variable {i : Fin n}

theorem foldl_record_of_silent {es : List (Event n C)} (h : ∀ e ∈ es, ∀ sent, record i sent e = sent)
    (sent : List (List (ApplyMsg C))) : es.foldl (record i) sent = sent := by
  induction es with
  | nil => rfl
  | cons e es ih =>
    rw [List.foldl_cons, h e List.mem_cons_self]
    exact ih fun e he => h e (List.mem_cons_of_mem _ he)

theorem foldl_record_applied (msgs : List (ApplyMsg C)) (sent : List (List (ApplyMsg C))) :
    (msgs.map (.applied i)).foldl (record i) sent = sent.modifyHead (· ++ msgs) := by
  induction msgs generalizing sent with
  | nil => cases sent <;> simp
  | cons msg msgs ih =>
    rw [List.map_cons, List.foldl_cons, ih]
    cases sent <;> simp [record]

/-- No event but a message of server `i` and the restart of server `i` counts. -/
theorem record_silent {e : Event n C} (happlied : ∀ msg, e ≠ .applied i msg) (hcrash : ∀ j, e ≠ .acted i (.crash j))
    (sent : List (List (ApplyMsg C))) : record i sent e = sent := by
  unfold record
  split
  · rename_i j msg
    exact if_neg fun hj : j = i => happlied msg (hj ▸ rfl)
  · rename_i j k
    exact if_neg fun hj : j = i => hcrash k (hj ▸ rfl)
  · rfl

end Record

/-! ### What a step sends -/

/-- The applier numbers its messages from the one after `lastApplied`, and has sent all of them if it ran to its end. -/
theorem Raft.applyLoop_indices (log : List (Log C)) (lastApplied k : Nat) :
    (Raft.applyLoop log lastApplied k).1.map ApplyMsg.commandIndex =
        List.range' (lastApplied + 1) (Raft.applyLoop log lastApplied k).1.length ∧
      ((Raft.applyLoop log lastApplied k).2 = true → (Raft.applyLoop log lastApplied k).1.length = k) := by
  induction k generalizing lastApplied with
  | zero => exact ⟨rfl, fun _ => rfl⟩
  | succ k ih =>
    unfold Raft.applyLoop
    split
    · exact ⟨rfl, fun h => by cases h⟩
    · obtain ⟨hindices, hends⟩ := ih (lastApplied + 1)
      refine ⟨?_, fun h => ?_⟩
      · rw [List.map_cons, List.length_cons, List.range'_succ, hindices]
      · rw [List.length_cons, hends h]

theorem Raft.applyLoop_valid {log : List (Log C)} {lastApplied k : Nat} {msg : ApplyMsg C}
    (h : msg ∈ (Raft.applyLoop log lastApplied k).1) : msg.commandValid = true := by
  induction k generalizing lastApplied with
  | zero => cases h
  | succ k ih =>
    unfold Raft.applyLoop at h
    split at h
    · cases h
    · rcases List.mem_cons.mp h with rfl | h
      · rfl
      · exact ih h

/-- What a step that takes a peer from `p` to `p'` does to the messages sent: nothing, the next ones in order, or a
    restart with a new channel. -/
inductive Sends (p p' : Peer n C) (sent : List (List (ApplyMsg C))) : List (List (ApplyMsg C)) → Prop where
  | nothing (hlast : p'.rf.lastApplied = p.rf.lastApplied) (hp : p'.panicked = false → p.panicked = false) :
      Sends p p' sent sent
  | batch {msgs : List (ApplyMsg C)} (hp : p.panicked = false) (hvalid : ∀ msg ∈ msgs, msg.commandValid = true)
      (hindices : msgs.map ApplyMsg.commandIndex = List.range' (p.rf.lastApplied + 1) msgs.length)
      (hlast : p'.panicked = false → p'.rf.lastApplied = p.rf.lastApplied + msgs.length) :
      Sends p p' sent (sent.modifyHead (· ++ msgs))
  | restart (hlast : p'.rf.lastApplied = 0) : Sends p p' sent ([] :: sent)

theorem Sends.valid {p p' : Peer n C} {sent sent' : List (List (ApplyMsg C))} (h : Sends p p' sent sent')
    (hsent : ∀ msgs ∈ sent, ∀ msg ∈ msgs, msg.commandValid = true) {msgs : List (ApplyMsg C)} (hmsgs : msgs ∈ sent')
    {msg : ApplyMsg C} (hmsg : msg ∈ msgs) : msg.commandValid = true := by
  cases h with
  | nothing => exact hsent msgs hmsgs msg hmsg
  | batch _ hvalid =>
    cases sent with
    | nil => cases hmsgs
    | cons cur past =>
      rcases List.mem_cons.mp hmsgs with rfl | hmsgs
      · rcases List.mem_append.mp hmsg with hmsg | hmsg
        · exact hsent cur List.mem_cons_self msg hmsg
        · exact hvalid msg hmsg
      · exact hsent msgs (List.mem_cons_of_mem _ hmsgs) msg hmsg
  | restart =>
    rcases List.mem_cons.mp hmsgs with rfl | hmsgs
    · cases hmsg
    · exact hsent msgs hmsgs msg hmsg

theorem Raft.make_lastApplied {me : Fin n} {persister : Persister C} {rf : Raft n C}
    (h : Raft.make me persister = some rf) : rf.lastApplied = 0 := by
  unfold Raft.make Raft.readPersist at h
  split at h
  · cases h
    rfl
  · split at h
    · cases h
    · cases h
      rfl

section Step
variable {s s' : Cluster n C} {a : Action n C} {es : List (Event n C)}

/-- A peer that neither applies nor restarts keeps `lastApplied`, and stays panicked if it is. -/
def Idle (p p' : Peer n C) : Prop :=
  p'.rf.lastApplied = p.rf.lastApplied ∧ (p'.panicked = false → p.panicked = false)

theorem Idle.setPeer {i j : Fin n} {p : Peer n C} (h : Idle (s.peers i) p) :
    Idle (s.peers j) ((s.setPeer i p).peers j) := by
  by_cases hij : j = i
  · subst hij
    rw [Cluster.setPeer_self]
    exact h
  · rw [Cluster.setPeer_ne s p hij]
    exact ⟨rfl, id⟩

/-- Only the applier and a restart write `lastApplied`. -/
theorem step_idle (h : step s a = some (s', es)) (happlier : ∀ i, a ≠ .applier i) (hcrash : ∀ i, a ≠ .crash i)
    (j : Fin n) : Idle (s.peers j) (s'.peers j) := by
  have caught : ∀ (rf : Raft n C) (term : Nat), (rf.catchUp term).lastApplied = rf.lastApplied :=
    fun rf term => (Raft.catchUp_kept rf term).2.2.2.1
  cases a with
  | startElectionTimer i =>
    obtain ⟨-, -, rfl, -⟩ := Step.startElectionTimer_inv h
    exact Idle.setPeer ⟨rfl, id⟩
  | candidate i =>
    obtain ⟨-, -, ⟨-, rfl, -⟩ | ⟨rf, args, hc, rfl, -⟩⟩ := Step.candidate_inv h
    · exact Idle.setPeer ⟨rfl, nofun⟩
    · obtain ⟨_, -, rfl, -⟩ := Raft.candidate_inv hc
      exact Idle.setPeer ⟨rfl, id⟩
  | poll i k =>
    obtain ⟨term, -, -, -, ⟨-, rfl⟩ | ⟨-, rfl⟩ | ⟨-, rfl⟩ | ⟨-, rfl⟩⟩ := Step.poll_inv h
    · exact Idle.setPeer ⟨rfl, id⟩
    · exact Idle.setPeer ⟨rfl, id⟩
    · exact Idle.setPeer ⟨rfl, id⟩
    · exact ⟨rfl, id⟩
  | leader i =>
    obtain ⟨-, -, rfl, -⟩ := Step.leader_inv h
    exact Idle.setPeer ⟨rfl, id⟩
  | leaderLoop i =>
    obtain ⟨-, -, ⟨-, rfl, -⟩ | ⟨-, _, -, rfl, -⟩ | ⟨-, _, -, rfl, -⟩⟩ := Step.leaderLoop_inv h
    · exact Idle.setPeer ⟨rfl, id⟩
    · exact Idle.setPeer ⟨rfl, id⟩
    · exact Idle.setPeer ⟨rfl, nofun⟩
  | startHeartBeat i =>
    obtain ⟨-, -, ⟨-, rfl, -⟩ | ⟨-, -, rfl, -⟩ | ⟨-, _, -, rfl, -⟩⟩ := Step.startHeartBeat_inv h
    · exact Idle.setPeer ⟨rfl, id⟩
    · exact Idle.setPeer ⟨rfl, nofun⟩
    · exact ⟨rfl, id⟩
  | start i command =>
    obtain ⟨-, rfl, -⟩ := Step.start_inv h
    refine Idle.setPeer ⟨?_, id⟩
    by_cases hl : (s.peers i).rf.state = .leader
    · rw [Raft.start_of_leader hl]
      rfl
    · rw [Raft.start_of_not_leader hl]
      rfl
  | requestVote k =>
    obtain ⟨c, -, -, -, ⟨-, rfl, -⟩ | ⟨rf, reply, hv, rfl, -⟩⟩ := Step.requestVote_inv h
    · exact Idle.setPeer ⟨rfl, nofun⟩
    · refine Idle.setPeer ⟨?_, id⟩
      rcases Raft.requestVote_inv hv with ⟨-, rfl, -⟩ | ⟨-, rfl, -⟩ | ⟨-, -, -, rfl, -⟩
      · rfl
      · exact caught _ _
      · exact caught _ _
  | sendRequestVote k =>
    obtain ⟨c, reply, -, -, -, -, -, rfl⟩ := Step.sendRequestVote_inv h
    refine Idle.setPeer ⟨?_, id⟩
    rcases Raft.sendRequestVote_cases (s.peers c.caller).rf c.args reply with h | ⟨-, -, h⟩ | ⟨-, -, -, h⟩ <;>
      rw [h] <;> rfl
  | appendEntriesTerm k =>
    obtain ⟨c, rf, -, -, -, -, h⟩ := Step.appendEntriesTerm_inv h
    have hrf : ∀ {reply : Option AppendEntriesReply}, (s.peers c.server).rf.appendEntriesTerm c.args = (rf, reply) →
        rf.lastApplied = (s.peers c.server).rf.lastApplied := by
      intro reply ht
      rcases Raft.appendEntriesTerm_inv ht with ⟨-, rfl, -⟩ | ⟨-, rfl, -⟩
      · rfl
      · exact caught _ _
    rcases h with ⟨reply, ht, rfl⟩ | ⟨ht, rfl⟩
    · exact Idle.setPeer ⟨hrf ht, id⟩
    · exact Idle.setPeer ⟨hrf ht, id⟩
  | appendEntriesLog k =>
    obtain ⟨c, rf, reply, -, -, -, hl, rfl, -⟩ := Step.appendEntriesLog_inv h
    refine Idle.setPeer ⟨?_, id⟩
    rcases (Raft.appendEntriesLog_inv hl).2 with ⟨-, rfl⟩ | ⟨-, -, ⟨-, rfl⟩ | ⟨-, rfl⟩⟩
    · rfl
    · rfl
    · exact Raft.accept_lastApplied _ _
  | sendAppendEntries k =>
    obtain ⟨c, reply, -, -, -, -, -, rfl⟩ := Step.sendAppendEntries_inv h
    refine Idle.setPeer ⟨?_, id⟩
    rcases Raft.sendAppendEntries_cases (s.peers c.caller).rf c.server c.args reply with
      ⟨-, h⟩ | ⟨-, -, h⟩ | ⟨-, -, -, h⟩ | ⟨-, -, -, h⟩ <;> rw [h] <;> rfl
  | applier i => exact absurd rfl (happlier i)
  | crash i => exact absurd rfl (hcrash i)

/-- The events that a step adds to a run. -/
def stepEvents (s : Cluster n C) (a : Action n C) (es : List (Event n C)) : List (Event n C) :=
  (a.server s).toList.map (Event.acted · a) ++ es

/-- Only the applier and a restart of server `i` change what server `i` has sent. -/
theorem stepEvents_silent (h : step s a = some (s', es)) {i : Fin n} (happlier : a ≠ .applier i)
    (hcrash : ∀ j, a = .crash j → a.server s ≠ some i) (sent : List (List (ApplyMsg C))) :
    (stepEvents s a es).foldl (record i) sent = sent := by
  refine foldl_record_of_silent (fun e he => record_silent ?_ ?_) sent
  · rintro msg rfl
    rcases List.mem_append.mp he with he | he
    · obtain ⟨_, -, he⟩ := List.mem_map.mp he
      cases he
    · cases step_event h he with
      | applied ha => exact happlier ha
  · rintro j rfl
    rcases List.mem_append.mp he with he | he
    · obtain ⟨k, hk, he⟩ := List.mem_map.mp he
      cases he
      exact hcrash j rfl (Option.mem_toList.mp hk)
    · cases step_event h he

theorem step_sends (h : step s a = some (s', es)) (i : Fin n) (sent : List (List (ApplyMsg C))) :
    Sends (s.peers i) (s'.peers i) sent ((stepEvents s a es).foldl (record i) sent) := by
  by_cases happlier : a = .applier i
  · subst happlier
    obtain ⟨hp, hlt, rf, msgs, rfl, hcase⟩ := Step.applier_inv h
    have hsent : (stepEvents s (.applier i) (msgs.map (.applied i))).foldl (record i) sent =
        sent.modifyHead (· ++ msgs) := foldl_record_applied msgs sent
    have hloop := Raft.applyLoop_indices (s.peers i).rf.log (s.peers i).rf.lastApplied
      ((s.peers i).rf.commitIndex - (s.peers i).rf.lastApplied)
    have hmsgs : (s.peers i).rf.apply.2.1 = msgs := by
      rcases hcase with ⟨happly, -⟩ | ⟨happly, -⟩ <;> rw [happly]
    rw [hsent, ← hmsgs]
    refine .batch hp (fun msg hm => Raft.applyLoop_valid hm) hloop.1 fun hpanicked => ?_
    rcases hcase with ⟨happly, rfl⟩ | ⟨-, rfl⟩
    · have hends : (s.peers i).rf.apply.2.2 = true := by rw [happly]
      have hlast : rf.lastApplied = (s.peers i).rf.commitIndex := by
        have hrf : (s.peers i).rf.apply.1 = rf := by rw [happly]
        rw [← hrf]
        rfl
      rw [Cluster.setPeer_self, Peer.withRf_rf, hlast]
      have hlen : (s.peers i).rf.apply.2.1.length = _ := hloop.2 hends
      omega
    · rw [Cluster.panic_self] at hpanicked
      cases hpanicked
  · by_cases hcrash : a = .crash i
    · subst hcrash
      obtain ⟨rf, hmake, rfl, rfl⟩ := Step.crash_inv h
      have hsent : (stepEvents s (.crash i) []).foldl (record i) sent = [] :: sent := if_pos rfl
      rw [hsent]
      refine .restart ?_
      rw [Cluster.setPeer_self]
      exact Raft.make_lastApplied hmake
    · have hother : ∀ j, a = .crash j → a.server s ≠ some i := by
        rintro j rfl hj
        exact hcrash (congrArg Action.crash (Option.some.inj hj))
      rw [stepEvents_silent h happlier hother]
      have hidle : Idle (s.peers i) (s'.peers i) := by
        obtain ⟨j, hj, hkept⟩ := step_other h
        by_cases hij : i = j
        · subst hij
          refine step_idle h ?_ ?_ i
          · rintro k rfl
            exact happlier (congrArg Action.applier (Option.some.inj hj))
          · rintro k rfl
            exact hother k rfl hj
        · rw [hkept i hij]
          exact ⟨rfl, id⟩
      exact .nothing hidle.1 hidle.2

end Step

theorem World.step_sends {w w' : World n C} {a : Action n C} (hs : w.step a = some w') (i : Fin n) :
    Sends (w.cluster.peers i) (w'.cluster.peers i) (w.sent i) (w'.sent i) := by
  obtain ⟨es, hstep, hevents⟩ := World.step_inv hs
  unfold World.sent
  rw [hevents, List.foldl_append]
  exact DistributedLabs.step_sends hstep i _

/-! ### Each incarnation counts from 1 -/

/-- The messages have the indices from 1 up. -/
def Counts (msgs : List (ApplyMsg C)) : Prop := msgs.map ApplyMsg.commandIndex = List.range' 1 msgs.length

theorem Counts.append {msgs msgs' : List (ApplyMsg C)} (h : Counts msgs)
    (h' : msgs'.map ApplyMsg.commandIndex = List.range' (msgs.length + 1) msgs'.length) : Counts (msgs ++ msgs') := by
  unfold Counts at *
  rw [List.map_append, h, h', List.length_append, Nat.add_comm msgs.length 1, List.range'_append_1]

theorem Counts.commandIndex {msgs : List (ApplyMsg C)} (h : Counts msgs) {k : Nat} {msg : ApplyMsg C}
    (hk : msgs[k]? = some msg) : msg.commandIndex = k + 1 := by
  have hlt := (List.getElem?_eq_some_iff.mp hk).1
  have hindex : (msgs.map ApplyMsg.commandIndex)[k]? = some msg.commandIndex := by rw [List.getElem?_map, hk]; rfl
  rw [h, List.getElem?_range' hlt] at hindex
  have := Option.some.inj hindex
  omega

/-- What server `i` has sent: every incarnation counts from 1, the current one up to `lastApplied`. -/
structure World.Counted (w : World n C) (i : Fin n) : Prop where
  counts : ∀ msgs ∈ w.sent i, Counts msgs
  current : ∃ msgs past, w.sent i = msgs :: past ∧
    ((w.cluster.peers i).panicked = false → msgs.length = (w.rf i).lastApplied)

theorem World.Counted.step {w w' : World n C} {a : Action n C} {i : Fin n} (h : w.Counted i)
    (hs : w.step a = some w') : w'.Counted i := by
  obtain ⟨msgs, past, hsent, hlength⟩ := h.current
  have hsends := World.step_sends hs i
  generalize hsent' : w'.sent i = sent' at hsends
  rw [hsent] at hsends
  have hcounts := h.counts
  rw [hsent] at hcounts
  cases hsends with
  | nothing hlast hp =>
    refine ⟨hsent' ▸ hcounts, msgs, past, hsent', fun hpanicked => ?_⟩
    rw [hlength (hp hpanicked)]
    exact hlast.symm
  | @batch new hp _ hindices hlast =>
    refine ⟨?_, msgs ++ new, past, hsent', fun hpanicked => ?_⟩
    · rw [hsent']
      intro x hx
      rcases List.mem_cons.mp hx with rfl | hx
      · refine (hcounts msgs List.mem_cons_self).append ?_
        rw [hlength hp]
        exact hindices
      · exact hcounts x (List.mem_cons_of_mem _ hx)
    · rw [List.length_append, hlength hp]
      exact (hlast hpanicked).symm
  | restart hlast =>
    refine ⟨?_, [], msgs :: past, hsent', fun _ => hlast.symm⟩
    rw [hsent']
    intro x hx
    rcases List.mem_cons.mp hx with rfl | hx
    · rfl
    · exact hcounts x hx

theorem World.Reachable.counted {P : Cluster n C → Action n C → Prop} {w : World n C} (hw : World.Reachable P w)
    (i : Fin n) : w.Counted i := by
  refine World.Steps.keeps (I := fun w => w.Counted i) (fun w w' a h _ hs => h.step hs) hw
    ⟨?_, [], [], rfl, fun _ => rfl⟩
  intro msgs hmsgs
  rw [List.mem_singleton.mp hmsgs]
  rfl

/-- In every run, also with crashes: the messages of one incarnation of a server carry the indices 1, 2, 3 and so on, one
    message for each. -/
theorem World.Reachable.sent_counts {P : Cluster n C → Action n C → Prop} {w : World n C} (hw : World.Reachable P w)
    {i : Fin n} {msgs : List (ApplyMsg C)} (h : msgs ∈ w.sent i) : Counts msgs := (hw.counted i).counts msgs h

/-! ### One sequence of commands -/

/-- An event that applies a command applies the one that `log` holds at its index. -/
def Event.Follows (log : List (Log C)) : Event n C → Prop
  | .applied _ msg => ∃ e, log[msg.commandIndex]? = some e ∧ msg.command = e.command
  | _ => True

theorem Event.Follows.mono {e : Event n C} {log log' : List (Log C)} (hle : log <+: log') (h : e.Follows log) :
    e.Follows log' := by
  cases e with
  | applied i msg =>
    obtain ⟨entry, hentry, hcommand⟩ := h
    obtain ⟨rest, rfl⟩ := hle
    exact ⟨entry, by rw [List.getElem?_append_left (List.getElem?_eq_some_iff.mp hentry).1, hentry], hcommand⟩
  | _ => trivial

/-- One log holds everything that was applied. -/
theorem World.Reachable.follows {w : World n C} (hw : World.Reachable Guard.Safe w) :
    ∃ log, ∀ e ∈ w.events, e.Follows log := by
  obtain ⟨m, ha, hc⟩ := hw.commits
  have hchosen : ∀ e ∈ w.events, ∃ t K, Chosen Log.term Log.fake m t K ∧ e.Follows K := by
    intro e he
    cases e with
    | applied i msg =>
      obtain ⟨t, K, entry, hK, hm⟩ := hc.applied i msg he
      exact ⟨t, K, hK, entry, hm⟩
    | _ => exact ⟨0, [], Or.inl List.nil_prefix, trivial⟩
  obtain ⟨-, log, -, hlog⟩ :=
    Chosen.exists_common (Q := fun e K => Event.Follows K e) ha.sound ha.backed (fun _ _ _ => Event.Follows.mono) w.events
      hchosen
  exact ⟨log, hlog⟩

section Sent
variable {i : Fin n} {msgs : List (ApplyMsg C)} {msg : ApplyMsg C}

theorem of_mem_record {sent : List (List (ApplyMsg C))} {e : Event n C} (h : msgs ∈ record i sent e)
    (hmsg : msg ∈ msgs) : (∃ old ∈ sent, msg ∈ old) ∨ e = .applied i msg := by
  unfold record at h
  split at h
  · split at h
    · rename_i j new hj
      subst hj
      cases sent with
      | nil => cases h
      | cons cur past =>
        rcases List.mem_cons.mp h with rfl | h
        · rcases List.mem_append.mp hmsg with hmsg | hmsg
          · exact Or.inl ⟨cur, List.mem_cons_self, hmsg⟩
          · rw [List.mem_singleton.mp hmsg]
            exact Or.inr rfl
        · exact Or.inl ⟨msgs, List.mem_cons_of_mem _ h, hmsg⟩
    · exact Or.inl ⟨msgs, h, hmsg⟩
  · split at h
    · rcases List.mem_cons.mp h with rfl | h
      · cases hmsg
      · exact Or.inl ⟨msgs, h, hmsg⟩
    · exact Or.inl ⟨msgs, h, hmsg⟩
  · exact Or.inl ⟨msgs, h, hmsg⟩

theorem of_mem_foldl_record {sent : List (List (ApplyMsg C))} {es : List (Event n C)}
    (h : msgs ∈ es.foldl (record i) sent) (hmsg : msg ∈ msgs) :
    (∃ old ∈ sent, msg ∈ old) ∨ .applied i msg ∈ es := by
  induction es generalizing sent with
  | nil => exact Or.inl ⟨msgs, h, hmsg⟩
  | cons e es ih =>
    rcases ih h with ⟨old, hold, hmem⟩ | hmem
    · rcases of_mem_record hold hmem with hmem | rfl
      · exact Or.inl hmem
      · exact Or.inr List.mem_cons_self
    · exact Or.inr (List.mem_cons_of_mem _ hmem)

/-- What an incarnation sent is an event of the run. -/
theorem World.sent_applied {w : World n C} (h : msgs ∈ w.sent i) (hmsg : msg ∈ msgs) : .applied i msg ∈ w.events := by
  rcases of_mem_foldl_record h hmsg with ⟨old, hold, hmem⟩ | he
  · rw [List.mem_singleton.mp hold] at hmem
    cases hmem
  · exact he

/-- Messages that count from 1 and follow a log carry its first commands. -/
theorem Counts.commands {log : List (Log C)} (h : Counts msgs)
    (hfollows : ∀ msg ∈ msgs, ∃ e, log[msg.commandIndex]? = some e ∧ msg.command = e.command) :
    msgs.map ApplyMsg.command <+: log.tail.map Log.command := by
  refine List.prefix_iff_getElem?.mpr fun k hk => ?_
  rw [List.length_map] at hk
  obtain ⟨e, he, hcommand⟩ := hfollows _ (List.getElem_mem hk)
  rw [h.commandIndex (List.getElem?_eq_getElem hk)] at he
  rw [List.getElem?_map, List.getElem?_tail, he, List.getElem_map, hcommand]
  rfl

end Sent

/-- In every run that meets the conditions, also with crashes: there is one sequence of commands, and every incarnation
    of every server sent a first part of it on its `applyCh`, with the indices from 1 up. -/
theorem applied_one_sequence {w : World n C} (hw : World.Reachable Guard.Safe w) :
    ∃ commands : List (Option C), ∀ i, ∀ msgs ∈ w.sent i, msgs.map ApplyMsg.command <+: commands ∧
      msgs.map ApplyMsg.commandIndex = List.range' 1 msgs.length := by
  obtain ⟨log, hlog⟩ := hw.follows
  refine ⟨log.tail.map Log.command, fun i msgs hmsgs => ?_⟩
  have hcounts := hw.sent_counts hmsgs
  exact ⟨hcounts.commands fun msg hmsg => hlog _ (World.sent_applied hmsgs hmsg), hcounts⟩

/-- After `appliedTwice` server 2 restarts, hears from the leader again and applies the first entry once more. -/
def appliedAgain : List (Action 3 Nat) :=
  appliedTwice ++ [.crash 2, .leaderLoop 0, .appendEntriesTerm 9, .appendEntriesLog 9, .applier 2]

theorem applied_one_sequence_restarted : ∃ (w : World 3 Nat) (commands : List (Option Nat)),
    w.sent 0 = [[⟨true, some 10, 1⟩]] ∧ w.sent 2 = [[⟨true, some 10, 1⟩], [⟨true, some 10, 1⟩]] ∧
    ∀ i, ∀ msgs ∈ w.sent i, msgs.map ApplyMsg.command <+: commands ∧
      msgs.map ApplyMsg.commandIndex = List.range' 1 msgs.length := by
  obtain ⟨w, hw, h⟩ := World.exec_any Guard.Safe (World.init 3 Nat) appliedAgain
    (fun w => decide (w.sent 0 = [[⟨true, some 10, 1⟩]] ∧ w.sent 2 = [[⟨true, some 10, 1⟩], [⟨true, some 10, 1⟩]]))
    (by decide)
  obtain ⟨h₀, h₂⟩ := of_decide_eq_true h
  obtain ⟨commands, hall⟩ := applied_one_sequence (World.exec_steps hw)
  exact ⟨w, commands, h₀, h₂, hall⟩

end DistributedLabs
