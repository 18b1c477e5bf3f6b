import DistributedLabs.Raft.Refinement

/-! The replies to `AppendEntries`. A reply that the sender does not drop comes from a handler that ran its second
    section in the term of the message, so that what it acknowledges was true at that moment. -/

namespace DistributedLabs

variable {n : Nat} {C : Type}

/-! ### What an acknowledgement says -/

namespace Raft

/-- The loop that looks for a conflict stops inside the log. -/
theorem conflictEntry_le_length {log : List (Log C)} {prev j : Nat} (hprev : prev < log.length) {entries : List (Log C)}
    (h : conflictEntry log prev 0 entries = some j) : prev + j + 1 ≤ log.length := by
  obtain ⟨d, hd, -, hbefore⟩ := conflictEntry_some h
  cases d with
  | zero => omega
  | succ d =>
    obtain ⟨_, -, hterm⟩ := hbefore d (Nat.lt_succ_self d)
    obtain ⟨_, he, -⟩ := Option.map_eq_some_iff.mp hterm
    have hlt := (List.getElem?_eq_some_iff.mp he).1
    omega

/-- The splice leaves the log alone up to the entry before the message. -/
theorem acceptEntries_kept {log : List (Log C)} {prev k : Nat} (hprev : prev < log.length) (hk : k ≤ prev)
    (entries : List (Log C)) : (acceptEntries log prev entries)[k]? = log[k]? := by
  unfold acceptEntries
  split
  · rfl
  · rename_i j hj
    have hlen := conflictEntry_le_length hprev hj
    rw [List.getElem?_append_left, List.getElem?_take_of_lt]
    · omega
    · rw [List.length_take]
      omega

/-- After it the log has the terms of the message where the message has entries. -/
theorem acceptEntries_term {log : List (Log C)} {prev i : Nat} (hprev : prev < log.length) {entries : List (Log C)}
    {entry : Log C} (he : entries[i]? = some entry) :
    ((acceptEntries log prev entries)[prev + 1 + i]?).map Log.term = some entry.term := by
  unfold acceptEntries
  split
  · rename_i hnone
    have hterm := conflictEntry_none hnone he
    rwa [show prev + 0 + i + 1 = prev + 1 + i by omega] at hterm
  · rename_i j hj
    have hlen := conflictEntry_le_length hprev hj
    have htake : (log.take (prev + j + 1)).length = prev + j + 1 := List.length_take_of_le hlen
    obtain ⟨d, hd, -, hbefore⟩ := conflictEntry_some hj
    rw [Nat.zero_add] at hd
    subst hd
    by_cases hi : i < j
    · -- Before the conflict the log already has the term.
      obtain ⟨entry', he', hterm⟩ := hbefore i hi
      rw [he] at he'
      cases he'
      rw [show prev + 0 + i + 1 = prev + 1 + i by omega] at hterm
      rw [List.getElem?_append_left (by omega), List.getElem?_take_of_lt (by omega)]
      exact hterm
    · rw [List.getElem?_append_right (by omega), htake, List.getElem?_drop,
        show j + (prev + 1 + i - (prev + j + 1)) = i by omega, he]
      rfl

/-- What a successful reply of the term of the message says about the peer before and after the second section. -/
structure Took (args : AppendEntriesArgs n C) (rf rf' : Raft n C) : Prop where
  term : rf.currentTerm = args.term ∧ rf'.currentTerm = args.term
  prevLog : (rf'.log[args.prevLogIndex]?).map Log.term = some args.prevLogTerm
  entries : ∀ i entry, args.entries[i]? = some entry →
    (rf'.log[args.prevLogIndex + 1 + i]?).map Log.term = some entry.term
  kept : ∀ k ≤ args.prevLogIndex, rf'.log[k]? = rf.log[k]?

theorem appendEntriesLog_took {rf rf' : Raft n C} {args : AppendEntriesArgs n C} {reply : AppendEntriesReply}
    (h : rf.appendEntriesLog args = (rf', reply)) (hs : reply.success = true) (ht : reply.term = args.term) :
    Took args rf rf' := by
  obtain ⟨hterm, ⟨hr, -⟩ | ⟨-, ⟨prevLog, hprev, hprevTerm⟩, hcases⟩⟩ := appendEntriesLog_inv h
  · rw [hr] at hs
    cases hs
  have hcur : rf.currentTerm = args.term := hterm.symm.trans ht
  have hlt := (List.getElem?_eq_some_iff.mp hprev).1
  have hmap : (rf.log[args.prevLogIndex]?).map Log.term = some args.prevLogTerm := by
    rw [hprev]
    exact congrArg some hprevTerm
  rcases hcases with ⟨hnil, rfl⟩ | ⟨-, rfl⟩
  · refine ⟨⟨hcur, hcur⟩, hmap, fun i entry he => ?_, fun _ _ => rfl⟩
    rw [hnil] at he
    cases he
  · refine ⟨⟨hcur, (accept_currentTerm rf args).trans hcur⟩, ?_, fun i entry he => ?_, fun k hk => ?_⟩ <;>
      rw [accept_log]
    · rw [acceptEntries_kept hlt (Nat.le_refl _)]
      exact hmap
    · exact acceptEntries_term hlt he
    · exact acceptEntries_kept hlt hk args.entries

end Raft

/-- The reply of the handler, also after the caller took it up. -/
def Call.answer {Args Reply : Type} (c : Call n Args Reply) : Option Reply :=
  match c.stage with
  | .replied reply | .returned reply => some reply
  | _ => none

/-- An acknowledgement that has just come about is that of the second section run in this step. -/
theorem step_answer {s s' : Cluster n C} {a : Action n C} {es : List (Event n C)} (h : step s a = some (s', es))
    {k : Nat} {c : AppendCall n C} (hc : s'.appendCalls[k]? = some c) {reply : AppendEntriesReply}
    (hr : c.answer = some reply) (hs : reply.success = true) :
    ∃ d, s.appendCalls[k]? = some d ∧ d.server = c.server ∧ d.args = c.args ∧
      (d.answer = some reply ∨
        (a = .appendEntriesLog k ∧ (s.peers c.server).rf.appendEntriesLog c.args = ((s'.peers c.server).rf, reply))) := by
  cases step_appendCall h hc with
  | kept hold => exact ⟨c, hold, rfl, rfl, Or.inl hr⟩
  | built _ _ hst =>
    unfold Call.answer at hr
    rw [hst] at hr
    cases hr
  | refused _ _ _ _ hno =>
    cases hr
    rw [hno] at hs
    cases hs
  | begun => cases hr
  | @answered d _ _ ha hold _ hl hp =>
    cases hr
    refine ⟨d, hold, rfl, rfl, Or.inr ⟨ha, ?_⟩⟩
    rw [hp, hl]
    rfl
  | @returned d _ _ hold hst =>
    cases hr
    refine ⟨d, hold, rfl, rfl, Or.inl ?_⟩
    unfold Call.answer
    rw [hst]

/-- In every run, whatever happens to the server between the sections of a call: if its reply is successful and passes
    the filter of the sender, then the second section of this call ran in the term of the message, and at that moment
    the log got the term of the message's every entry and of the entry before, with nothing changed up to there. -/
theorem acknowledgement_genuine {P : Cluster n C → Action n C → Prop} {w : World n C} (hw : World.Reachable P w)
    {k : Nat} {c : AppendCall n C} (hc : w.cluster.appendCalls[k]? = some c) {reply : AppendEntriesReply}
    (hr : c.answer = some reply) (hs : reply.success = true) (ht : reply.term = c.args.term) :
    ∃ w₁ w₂, World.Reachable P w₁ ∧ w₁.step (.appendEntriesLog k) = some w₂ ∧ World.Steps P w₂ w ∧
      (∃ d, w₁.cluster.appendCalls[k]? = some d ∧ d.server = c.server ∧ d.args = c.args) ∧
      Raft.Took c.args (w₁.rf c.server) (w₂.rf c.server) := by
  -- By induction on the run, for the call as it stands in its last world.
  unfold World.Reachable World.Steps at hw
  induction hw generalizing c with
  | refl => cases hc
  | @tail w w' hrun hnext ih =>
    obtain ⟨a, ha, hstep⟩ := hnext
    obtain ⟨es, hcluster, -⟩ := World.step_inv hstep
    obtain ⟨d, hd, hserver, hargs, hdr | ⟨rfl, hl⟩⟩ := step_answer hcluster hc hr hs
    · obtain ⟨w₁, w₂, h₁, h₂, h₃, ⟨d', hd', hserver', hargs'⟩, htook⟩ := ih hd hdr (hargs ▸ ht)
      rw [hserver, hargs] at htook
      exact ⟨w₁, w₂, h₁, h₂, h₃.tail ⟨a, ha, hstep⟩, ⟨d', hd', hserver'.trans hserver, hargs'.trans hargs⟩, htook⟩
    · exact ⟨w, w', hrun, hstep, .refl, ⟨d, hd, hserver, hargs⟩, Raft.appendEntriesLog_took hl hs ht⟩

/-- Server 0 replicates an entry to server 1, which times out after it has answered and stands for term 2 before the
    reply arrives. -/
def acknowledgedBefore : List (Action 3 Nat) :=
  [.startElectionTimer 0, .candidate 0, .requestVote 0, .sendRequestVote 0, .poll 0 0, .leader 0, .start 0 (some 10),
    .leaderLoop 0, .appendEntriesTerm 1, .appendEntriesLog 1, .startElectionTimer 1, .candidate 1]

theorem acknowledgement_genuine_before : ∃ (w w₁ w₂ : World 3 Nat), (w.rf 1).currentTerm = 2 ∧
    w₁.step (.appendEntriesLog 1) = some w₂ ∧ World.Steps World.Any w₂ w ∧ (w₂.rf 1).currentTerm = 1 ∧
    ((w₂.rf 1).log[1]?).map Log.term = some 1 := by
  obtain ⟨w, hw, h⟩ := World.exec_any World.Any (World.init 3 Nat) acknowledgedBefore
    (fun w => decide ((w.rf 1).currentTerm = 2) && (w.cluster.appendCalls[1]?).any fun (c : AppendCall 3 Nat) =>
      decide (c.server = 1 ∧ c.args = ⟨1, 0, 0, 0, [⟨1, some 10⟩], 0⟩ ∧ c.answer = some { term := 1, success := true }))
    (by decide)
  obtain ⟨hterm, h⟩ := Bool.and_eq_true_iff.mp h
  obtain ⟨c, hc, h⟩ := (Option.any_eq_true _ _).mp h
  obtain ⟨hserver, hargs, hr⟩ := of_decide_eq_true h
  obtain ⟨w₁, w₂, -, hs, hsteps, -, htook⟩ :=
    acknowledgement_genuine (World.exec_steps hw) hc hr rfl (by rw [hargs])
  rw [hserver, hargs] at htook
  exact ⟨w, w₁, w₂, of_decide_eq_true hterm, hs, hsteps, htook.term.2, htook.entries 0 _ rfl⟩

end DistributedLabs
