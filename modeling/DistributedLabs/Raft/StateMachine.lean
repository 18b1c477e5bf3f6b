import DistributedLabs.Raft.Completeness

/-! State machine safety. What a server holds up to its `commitIndex` is chosen in the replicas, so two servers
    never send different commands for one index on their `applyCh`. -/

namespace DistributedLabs

open ReplicatedLog

variable {n : Nat} {C : Type}

/-! ### What a step does to `commitIndex` -/

section Step
variable {s : Cluster n C} {a : Action n C} {i : Fin n} {rf : Raft n C}

theorem Raft.make_commitIndex {me : Fin n} {p : Persister C} (h : Raft.make me p = some rf) : rf.commitIndex = 0 := by
  unfold Raft.make Raft.readPersist at h
  split at h
  · cases h
    rfl
  · split at h
    · cases h
    · cases h
      rfl

/-- The index is kept with a log that keeps its entries, moved by a leader loop, moved or kept by an accepted
    message, or reset by a restart. -/
inductive CommitStep (s : Cluster n C) (a : Action n C) (i : Fin n) (rf : Raft n C) : Prop where
  | kept (hc : rf.commitIndex = (s.peers i).rf.commitIndex) (hlog : (s.peers i).rf.log <+: rf.log)
  | committed (ha : a = .leaderLoop i) (hrf : rf = (s.peers i).rf.commit)
  | accepted {k : Nat} {c : AppendCall n C} {prevLog : Log C} (ha : a = .appendEntriesLog k)
      (hc : s.appendCalls[k]? = some c) (hi : c.server = i) (hprev : (s.peers i).rf.log[c.args.prevLogIndex]? = some prevLog)
      (hterm : prevLog.term = c.args.prevLogTerm) (hne : c.args.entries ≠ []) (hrf : rf = (s.peers i).rf.accept c.args)
  | reset (hc : rf.commitIndex = 0)

theorem RfStep.commits (h : RfStep s a i rf) : CommitStep s a i rf := by
  have same : ∀ {rf : Raft n C}, rf.commitIndex = (s.peers i).rf.commitIndex → rf.log = (s.peers i).rf.log →
      CommitStep s a i rf := fun hc hl => .kept hc (hl ▸ List.prefix_rfl)
  cases h.write with
  | commit ha => exact .committed ha rfl
  | append => exact .kept rfl (List.prefix_append _ _)
  | catchUp => exact same (Raft.catchUp_commitIndex _ _) (Raft.catchUp_log _ _)
  | vote => exact same (Raft.catchUp_commitIndex _ _) (Raft.catchUp_log _ _)
  | accept hc hi _ hprev hterm ha hne => exact .accepted ha hc hi hprev hterm hne rfl
  | crash hmake => exact .reset (Raft.make_commitIndex hmake)
  | _ => exact same rfl rfl

/-- Messages are built by a server that speaks with its log and keeps it. -/
theorem built_kept {w w' : World n C} {es : List (Event n C)} (hstep : step w.cluster a = some (w'.cluster, es))
    (hspoke : .spoke i (w.rf i).currentTerm (w.rf i).log ∈ es) :
    (w'.rf i).currentTerm = (w.rf i).currentTerm ∧ (w'.rf i).log = (w.rf i).log := by
  generalize ht : (w.rf i).currentTerm = t at hspoke ⊢
  generalize hl : (w.rf i).log = l at hspoke ⊢
  rw [← ht, ← hl]
  cases step_event hstep hspoke with
  | replicated ha => exact loop_kept hstep (Or.inl ha) i
  | heartbeat ha => exact loop_kept hstep (Or.inr ha) i
  | started =>
    -- The log of an accepted `Start` is longer than the one before it.
    unfold World.rf at hl
    rw [Raft.appendCommand_log] at hl
    simp at hl

end Step

/-! ### Committed prefixes are chosen -/

/-- A longer list has the same first entries. -/
theorem take_extended {α : Type} {l l' : List α} (h : l <+: l') {k : Nat} (hk : k ≤ l.length) :
    l'.take k = l.take k := by
  obtain ⟨rest, rfl⟩ := h
  exact List.take_append_of_le_length hk

/-- What servers and messages call committed is chosen, and so is what was applied. -/
structure Commits (w : World n C) (m : Replicas n C) : Prop where
  servers : ∀ i, (w.rf i).commitIndex < (w.rf i).log.length ∧
    Chosen Log.term Log.fake m (m.cur i) ((w.rf i).log.take ((w.rf i).commitIndex + 1))
  messages : ∀ c ∈ w.cluster.appendCalls, c.args.leaderCommit < c.args.reach ∧
    Chosen Log.term Log.fake m c.args.term ((m.book c.args.term).take (c.args.leaderCommit + 1))
  applied : ∀ i msg, .applied i msg ∈ w.events → ∃ t K e, Chosen Log.term Log.fake m t K ∧
    K[msg.commandIndex]? = some e ∧ msg.command = e.command

theorem commits_init : Commits (World.init n C) (ReplicatedLog.State.init (Fin n) Log.fake) where
  servers _ := ⟨Nat.zero_lt_one, Or.inl List.prefix_rfl⟩
  messages c hc := by cases hc
  applied i msg h := by cases h

namespace Commits

variable {w w' : World n C} {m m' : Replicas n C} {a : Action n C}

section Accepted
variable {c : AppendCall n C} {prevLog : Log C}

/-- What was committed before stands in the log that a server has after it accepted a message of its term. -/
theorem accepted_keeps (h : Commits w m) (ha : Agreed w m) (hc : c ∈ w.cluster.appendCalls)
    (hterm : c.args.term = (w.rf c.server).currentTerm)
    (hadopts : Adopts (covered m c.args) (m.log c.server) (w'.rf c.server).log) :
    (w.rf c.server).log.take ((w.rf c.server).commitIndex + 1) <+: (w'.rf c.server).log := by
  have hcarries := ha.refines.messages c hc
  have hT : m.cur c.server = c.args.term := by rw [ha.refines.cur, hterm]
  obtain ⟨o, ho⟩ := hcarries.owner
  refine (h.servers c.server).2.adopted ha.sound ha.backed (o := o) ?_ ?_ ?_ hadopts ?_
  · rw [hT]
    exact ho
  · rw [hT]
    exact hcarries.base_covered ha.sound
  · rw [hT]
    exact List.take_prefix _ _
  · rw [ha.refines.log]
    exact List.take_prefix _ _

/-- A server that accepts a message of its term. -/
theorem accepted (h : Commits w m) (ha : Agreed w m) (hc : c ∈ w.cluster.appendCalls)
    (hterm : c.args.term = (w.rf c.server).currentTerm)
    (hprev : (w.rf c.server).log[c.args.prevLogIndex]? = some prevLog) (hprevTerm : prevLog.term = c.args.prevLogTerm)
    (hrf : w'.rf c.server = (w.rf c.server).accept c.args) :
    (w'.rf c.server).commitIndex < (w'.rf c.server).log.length ∧
      Chosen Log.term Log.fake m (m.cur c.server)
        ((w'.rf c.server).log.take ((w'.rf c.server).commitIndex + 1)) := by
  have hcarries := ha.refines.messages c hc
  have hT : m.cur c.server = c.args.term := by rw [ha.refines.cur, hterm]
  have hadopts := ha.accept_adopts hc hprev hprevTerm hrf
  have hcovers := hadopts.covers
  obtain ⟨hlen, hchosen⟩ := h.servers c.server
  obtain ⟨hmsg, hmsgChosen⟩ := h.messages c hc
  rcases Raft.accept_commitIndex (w.rf c.server) c.args with hci | ⟨-, hci⟩ <;> rw [← hrf] at hci <;> rw [hci]
  · have hkeep := h.accepted_keeps ha hc hterm hadopts
    have htake := take_extended hkeep (k := (w.rf c.server).commitIndex + 1) (by rw [List.length_take]; omega)
    rw [htake, List.take_take, Nat.min_self]
    refine ⟨?_, hchosen⟩
    have := hkeep.length_le
    rw [List.length_take] at this
    omega
  · have hmin : min c.args.leaderCommit (c.args.prevLogIndex + c.args.entries.length) = c.args.leaderCommit := by
      unfold AppendEntriesArgs.reach at hmsg
      omega
    have hreach : c.args.leaderCommit + 1 ≤ (covered m c.args).length := by
      rw [hcarries.covered_length]
      exact hmsg
    have hcovered : (m.book c.args.term).take (c.args.leaderCommit + 1) =
        (covered m c.args).take (c.args.leaderCommit + 1) := by
      refine take_extended ?_ hreach
      exact List.take_prefix _ _
    rw [hmin, hT, take_extended hcovers hreach, ← hcovered]
    exact ⟨Nat.lt_of_lt_of_le (Nat.lt_of_succ_le hreach) hcovers.length_le, hmsgChosen⟩

end Accepted

theorem server_step (h : Commits w m) (ha : Agreed w m) (ha' : Agreed w' m')
    (hsteps : Relation.ReflTransGen (ReplicatedLog.Step Log.term Won) m m') (hg : Guard.Safe w.cluster a)
    (hs : w.step a = some w') (i : Fin n) :
    (w'.rf i).commitIndex < (w'.rf i).log.length ∧
      Chosen Log.term Log.fake m' (m'.cur i) ((w'.rf i).log.take ((w'.rf i).commitIndex + 1)) := by
  obtain ⟨es, hstep, -⟩ := World.step_inv hs
  have hcur : m.cur i ≤ m'.cur i := by
    rw [ha.refines.cur, ha'.refines.cur]
    exact step_term_le ha.durable hstep i
  have later : ∀ {K : List (Log C)}, Chosen Log.term Log.fake m (m.cur i) K → Chosen Log.term Log.fake m' (m'.cur i) K :=
    fun hK => (hK.steps ha.sound hsteps).mono hcur List.prefix_rfl
  obtain ⟨hlen, hchosen⟩ := h.servers i
  cases (step_rf hstep i).commits with
  | kept hc hlog =>
    have hc : (w'.rf i).commitIndex = (w.rf i).commitIndex := hc
    have hlog : (w.rf i).log <+: (w'.rf i).log := hlog
    rw [hc, take_extended hlog (k := (w.rf i).commitIndex + 1) hlen]
    exact ⟨Nat.lt_of_lt_of_le hlen hlog.length_le, later hchosen⟩
  | committed haction hrf =>
    subst haction
    have hlog : (w'.rf i).log = (w.rf i).log := (loop_kept hstep (Or.inl rfl) i).2
    by_cases hmoved : (w'.rf i).commitIndex = (w.rf i).commitIndex
    · rw [hmoved, hlog]
      exact ⟨hlen, later hchosen⟩
    · obtain ⟨hlt, hcom⟩ := ha.loop_commits hg hs hmoved
      rw [hlog]
      exact ⟨hlt, later (Or.inr ⟨_, _, Nat.le_refl _, hcom, List.prefix_rfl⟩)⟩
  | @accepted k c prevLog haction hc hi hprev hterm hne hrf =>
    subst haction hi
    have hsame := hg.acceptInTerm c hc hne (Raft.consistent_of_prevLog hprev hterm)
    obtain ⟨hlt, hch⟩ := h.accepted ha (List.mem_of_getElem? hc) hsame hprev hterm hrf
    exact ⟨hlt, later hch⟩
  | reset hc =>
    have hc : (w'.rf i).commitIndex = 0 := hc
    have hstart := ha'.sound.start i
    rw [ha'.refines.log] at hstart
    rw [hc, take_extended hstart (Nat.le_refl 1)]
    exact ⟨hstart.length_le, Or.inl (List.take_prefix _ _)⟩

theorem message_step (h : Commits w m) (ha : Agreed w m) (ha' : Agreed w' m')
    (hsteps : Relation.ReflTransGen (ReplicatedLog.Step Log.term Won) m m') (hs : w.step a = some w')
    {c : AppendCall n C} (hc : c ∈ w'.cluster.appendCalls) :
    c.args.leaderCommit < c.args.reach ∧
      Chosen Log.term Log.fake m' c.args.term ((m'.book c.args.term).take (c.args.leaderCommit + 1)) := by
  obtain ⟨es, hstep, -⟩ := World.step_inv hs
  rcases (step_appendCalls hstep hc).origin with ⟨d, hd, -, -, -, hargs⟩ | ⟨-, -, hb, -, hspoke⟩
  · rw [← hargs]
    obtain ⟨hlt, hchosen⟩ := h.messages d hd
    have hreach := (ha.refines.messages d hd).reach
    rw [take_extended (ha.sound.book_steps hsteps _) (Nat.le_trans hlt hreach)]
    exact ⟨hlt, hchosen.steps ha.sound hsteps⟩
  · -- The builder speaks for its term, and its log is the book.
    obtain ⟨hterm, hlog⟩ := built_kept hstep hspoke
    obtain ⟨hlen, hchosen⟩ := h.servers c.caller
    have hb : (w.rf c.caller).BuiltFrom c.args := hb
    have hargs : c.args.term = m'.cur c.caller := by rw [hb.term, ha'.refines.cur, hterm]
    have hown : m'.owner (m'.cur c.caller) = some c.caller := by
      rw [ha'.refines.owner, ha'.refines.cur, hterm]
      exact ⟨_, World.mem_events_of_mem hstep hs hspoke⟩
    have hbook : m'.book c.args.term = (w.rf c.caller).log := by
      rw [hargs, ← (ha'.sound.reigns _ _ hown).2 rfl, ha'.refines.log, hlog]
    have hreach : c.args.reach = (w.rf c.caller).log.length := hb.reach
    have hcur : m.cur c.caller = c.args.term := by rw [ha.refines.cur, hb.term]
    rw [hbook, hreach, hb.leaderCommit, ← hcur]
    exact ⟨hlen, hchosen.steps ha.sound hsteps⟩

theorem step (h : Commits w m) (ha : Agreed w m) (ha' : Agreed w' m')
    (hsteps : Relation.ReflTransGen (ReplicatedLog.Step Log.term Won) m m') (hg : Guard.Safe w.cluster a)
    (hs : w.step a = some w') : Commits w' m' := by
  refine ⟨h.server_step ha ha' hsteps hg hs, fun c hc => h.message_step ha ha' hsteps hs hc, fun i msg he => ?_⟩
  rcases World.step_event hs he with hold | ⟨_, hno⟩ | hnew
  · obtain ⟨t, K, e, hK, hm⟩ := h.applied i msg hold
    exact ⟨t, K, e, hK.steps ha.sound hsteps, hm⟩
  · cases hno
  · cases hnew with
    | applied _ hlt hmem =>
      obtain ⟨e, he, hcommand, -, hle⟩ := Raft.applyLoop_mem hmem
      refine ⟨m.cur i, _, e, (h.servers i).2.steps ha.sound hsteps, ?_, hcommand⟩
      unfold World.rf
      rw [List.getElem?_take_of_lt (by omega)]
      exact he

end Commits

theorem World.Reachable.commits {w : World n C} (hw : World.Reachable Guard.Safe w) :
    ∃ m, Agreed w m ∧ Commits w m := by
  refine World.Steps.keeps (I := fun w => ∃ m, Agreed w m ∧ Commits w m) ?_ hw ⟨_, agreed_init, commits_init⟩
  rintro w w' a ⟨m, ha, hc⟩ hg hs
  obtain ⟨m', hsteps, ha'⟩ := ha.step hg hs
  exact ⟨m', ha', hc.step ha ha' hsteps hg hs⟩

/-- In every run that meets the conditions, two messages on the `applyCh`s of the cluster with one index carry one
    command. -/
theorem state_machine_safety {w : World n C} (hw : World.Reachable Guard.Safe w) {i j : Fin n} {msg msg' : ApplyMsg C}
    (hi : .applied i msg ∈ w.events) (hj : .applied j msg' ∈ w.events)
    (hindex : msg.commandIndex = msg'.commandIndex) : msg.command = msg'.command := by
  obtain ⟨m, ha, hc⟩ := hw.commits
  obtain ⟨t, K, e, hK, he, hcommand⟩ := hc.applied i msg hi
  obtain ⟨t', K', e', hK', he', hcommand'⟩ := hc.applied j msg' hj
  have hsame : e = e' := by
    rw [← hindex] at he'
    have hlt := (List.getElem?_eq_some_iff.mp he).1
    have hlt' := (List.getElem?_eq_some_iff.mp he').1
    rcases hK.comparable ha.sound ha.backed hK' with ⟨rest, hrest⟩ | ⟨rest, hrest⟩
    · rw [← hrest, List.getElem?_append_left hlt, he] at he'
      exact Option.some.inj he'
    · rw [← hrest, List.getElem?_append_left hlt', he'] at he
      exact (Option.some.inj he).symm
  rw [hcommand, hcommand', hsame]

/-- The first entry of server 0 is applied there, reaches server 2 together with a second one, and is applied there
    too. -/
def appliedTwice : List (Action 3 Nat) :=
  replicated ++ [.leaderLoop 0, .applier 0, .start 0 (some 11), .leaderLoop 0, .appendEntriesTerm 6,
    .appendEntriesLog 6, .applier 2]

theorem state_machine_safety_applied : ∃ (w : World 3 Nat) (msg msg' : ApplyMsg Nat), .applied 0 msg ∈ w.events ∧
    .applied 2 msg' ∈ w.events ∧ msg.commandIndex = msg'.commandIndex ∧ msg.command = msg'.command := by
  obtain ⟨w, hw, h⟩ := World.exec_any Guard.Safe (World.init 3 Nat) appliedTwice
    (fun w => decide (.applied 0 ⟨true, some 10, 1⟩ ∈ w.events ∧ .applied 2 ⟨true, some 10, 1⟩ ∈ w.events)) (by decide)
  obtain ⟨h₀, h₂⟩ := of_decide_eq_true h
  exact ⟨w, _, _, h₀, h₂, rfl, state_machine_safety (World.exec_steps hw) h₀ h₂ rfl⟩

/-- Both leaders of term 1 find a majority for their entry at index 1: server 1 answers the second message without
    looking at the command, since it already holds an entry of term 1 there. -/
def splitApplied : List (Action 3 Nat) :=
  splitReplicated ++ [.leaderLoop 0, .applier 0, .leaderLoop 2, .appendEntriesTerm 5, .appendEntriesLog 5,
    .sendAppendEntries 5, .appendEntriesTerm 6, .appendEntriesLog 6, .sendAppendEntries 6, .leaderLoop 2, .applier 2]

theorem different_commands_applied : ∃ w : World 3 Nat, World.Reachable World.Any w ∧
    .applied 0 ⟨true, some 10, 1⟩ ∈ w.events ∧ .applied 2 ⟨true, some 20, 1⟩ ∈ w.events := by
  obtain ⟨w, hw, h⟩ := World.exec_any World.Any (World.init 3 Nat) splitApplied
    (fun w => decide (.applied 0 ⟨true, some 10, 1⟩ ∈ w.events ∧ .applied 2 ⟨true, some 20, 1⟩ ∈ w.events)) (by decide)
  exact ⟨w, World.exec_steps hw, of_decide_eq_true h⟩

end DistributedLabs
