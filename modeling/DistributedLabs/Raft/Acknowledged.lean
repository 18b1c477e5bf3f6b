import DistributedLabs.Raft.Refinement

/-! Messages of one term, in any order. Every `AppendEntries` of a term carries a part of one log up to its end at some
    moment; old, short and repeated messages never undo what newer ones did. -/

namespace DistributedLabs

open ReplicatedLog

variable {n : Nat} {C : Type}

/-- A sequence of `AppendEntries` messages, each handled without a break. -/
def Raft.deliver (rf : Raft n C) (messages : List (AppendEntriesArgs n C)) : Raft n C :=
  messages.foldl (fun rf args => (rf.appendEntries args).1) rf

/-- A message of `term` that the replication loop or a heartbeat builds in a state in which the log is a prefix of `L`
    and `commitIndex` lies inside it. -/
def AppendEntriesArgs.SentFrom (L : List (Log C)) (term : Nat) (args : AppendEntriesArgs n C) : Prop :=
  ∃ leader : Raft n C, leader.log <+: L ∧ leader.currentTerm = term ∧ leader.commitIndex ≤ leader.log.length - 1 ∧
    ((∃ index, leader.replicationArgs index = some args) ∨ leader.startHeartBeat = some args)

/-- Such a message carries the end of a prefix `P` of `L`, from an entry that stands in `P`. -/
theorem AppendEntriesArgs.SentFrom.carries {L : List (Log C)} {term : Nat} {args : AppendEntriesArgs n C}
    (h : args.SentFrom L term) : ∃ P, P <+: L ∧ P.length = args.reach ∧ args.leaderCommit < args.reach ∧
      (∃ y, P[args.prevLogIndex]? = some y ∧ y.term = args.prevLogTerm) ∧
      args.entries = P.drop (args.prevLogIndex + 1) := by
  obtain ⟨leader, hP, -, hcommit, hbuilt⟩ := h
  have hb : leader.BuiltFrom args := by
    rcases hbuilt with ⟨index, hargs⟩ | hargs
    · exact (Raft.replicationArgs_built hargs).2
    · exact Raft.startHeartBeat_built hargs
  obtain ⟨y, hy, hterm⟩ := hb.prevLog
  have hlt := (List.getElem?_eq_some_iff.mp hy).1
  refine ⟨leader.log, hP, hb.reach.symm, ?_, ⟨y, hy, hterm⟩, hb.entries⟩
  rw [hb.leaderCommit, hb.reach]
  omega

/-- What a follower of `L` keeps: the entries it shares with `L`, its `commitIndex`, above which it takes entries of
    `L` only, and what other logs have in common with it. -/
structure Raft.Kept (L : List (Log C)) (rf rf' : Raft n C) : Prop where
  shared : ∀ (k : Nat) (e : Log C), rf.log[k]? = some e → L[k]? = some e → rf'.log[k]? = some e
  commitIndex : rf.commitIndex ≤ rf'.commitIndex
  committed : ∀ k : Nat, rf.commitIndex < k → k ≤ rf'.commitIndex → ∃ e, L[k]? = some e ∧ rf'.log[k]? = some e
  matching : ∀ l, Matching Log.term l rf.log → Matching Log.term l L → Matching Log.term l rf'.log

namespace Raft.Kept

variable {L : List (Log C)} {rf rf₁ rf₂ : Raft n C}

theorem of_eq (hlog : rf₁.log = rf.log) (hc : rf₁.commitIndex = rf.commitIndex) : rf.Kept L rf₁ where
  shared _ _ he _ := hlog ▸ he
  commitIndex := Nat.le_of_eq hc.symm
  committed _ hlt hle := by omega
  matching _ h _ := hlog ▸ h

theorem trans (h₁ : rf.Kept L rf₁) (h₂ : rf₁.Kept L rf₂) : rf.Kept L rf₂ where
  shared k e he hL := h₂.shared k e (h₁.shared k e he hL) hL
  commitIndex := Nat.le_trans h₁.commitIndex h₂.commitIndex
  committed k hlt hle := by
    by_cases hk : k ≤ rf₁.commitIndex
    · obtain ⟨e, hL, he⟩ := h₁.committed k hlt hk
      exact ⟨e, hL, h₂.shared k e he hL⟩
    · exact h₂.committed k (Nat.lt_of_not_le hk) hle
  matching l h hL := h₂.matching l (h₁.matching l h hL) hL

end Raft.Kept

section Deliver
variable {L : List (Log C)} {term : Nat}

/-- One message: the log still matches `L`, and if the message was accepted it agrees with `L` as far as the message
    reaches. -/
theorem AppendEntriesArgs.SentFrom.kept {args : AppendEntriesArgs n C} (hm : args.SentFrom L term) {rf rf' : Raft n C}
    (hmatch : Matching Log.term rf.log L) {reply : AppendEntriesReply} (h : rf.appendEntries args = (rf', reply)) :
    Matching Log.term rf'.log L ∧ rf.Kept L rf' ∧
      (reply.success = true → ∀ k ≤ args.prevLogIndex + args.entries.length,
        ∃ e, L[k]? = some e ∧ rf'.log[k]? = some e) := by
  -- A message that is refused leaves the log and the index alone.
  have refused : reply.success = false → rf'.log = rf.log → rf'.commitIndex = rf.commitIndex →
      Matching Log.term rf'.log L ∧ rf.Kept L rf' ∧
        (reply.success = true → ∀ k ≤ args.prevLogIndex + args.entries.length,
          ∃ e, L[k]? = some e ∧ rf'.log[k]? = some e) := by
    intro hr hlog hc
    refine ⟨hlog ▸ hmatch, .of_eq hlog hc, fun hs => ?_⟩
    rw [hr] at hs
    cases hs
  rcases Raft.appendEntries_inv h with ⟨-, rfl, hr⟩ | ⟨-, hl⟩
  · exact refused hr rfl rfl
  rcases (Raft.appendEntriesLog_inv hl).2 with ⟨hr, rfl⟩ | ⟨-, ⟨x, hx, hxy⟩, hcases⟩
  · exact refused hr (Raft.catchUp_log _ _) (Raft.catchUp_commitIndex _ _)
  rw [Raft.catchUp_log] at hx
  obtain ⟨P, hP, hlen, hcommit, ⟨y, hy, hyterm⟩, hentries⟩ := hm.carries
  -- A heartbeat is the splice of no entries.
  have hlog : rf'.log = Raft.acceptEntries rf.log args.prevLogIndex args.entries := by
    rcases hcases with ⟨hnil, rfl⟩ | ⟨-, rfl⟩
    · rw [hnil, Raft.catchUp_log]
      rfl
    · rw [Raft.accept_log, Raft.catchUp_log]
  have hadopts : Adopts P rf.log rf'.log := by
    rw [hlog, hentries]
    exact Raft.acceptEntries_adopts (hmatch.of_isPrefix hP) hx hy (hxy.trans hyterm.symm)
  have hagree : ∀ k < args.reach, ∃ e, L[k]? = some e ∧ rf'.log[k]? = some e := by
    intro k hk
    obtain ⟨rest, hrest⟩ := hadopts.covers
    obtain ⟨rest', hrest'⟩ := hP
    have hlt : k < P.length := hlen ▸ hk
    refine ⟨P[k], ?_, ?_⟩
    · rw [← hrest', List.getElem?_append_left hlt, List.getElem?_eq_getElem hlt]
    · rw [← hrest, List.getElem?_append_left hlt, List.getElem?_eq_getElem hlt]
  have hindex : rf'.commitIndex = rf.commitIndex ∨
      (rf.commitIndex < args.leaderCommit ∧ rf'.commitIndex = args.leaderCommit) := by
    rcases hcases with ⟨-, rfl⟩ | ⟨-, rfl⟩
    · exact Or.inl (Raft.catchUp_commitIndex _ _)
    · unfold AppendEntriesArgs.reach at hcommit
      rcases Raft.accept_commitIndex (rf.catchUp args.term) args with hc | ⟨hlt, hc⟩ <;>
        rw [Raft.catchUp_commitIndex] at *
      · exact Or.inl hc
      · exact Or.inr ⟨hlt, by omega⟩
  refine ⟨?_, ⟨?_, ?_, ?_, ?_⟩, fun _ k hk => hagree k (Nat.lt_succ_of_le hk)⟩
  · rcases hadopts with ⟨-, hsame⟩ | ⟨-, hsame⟩ <;> rw [hsame]
    · exact hmatch
    · exact fun k e e' he he' hterm => (((Matching.refl L).of_isPrefix hP) k e' e he' he hterm.symm).symm
  · exact fun k e he hL => hadopts.keeps hP hmatch he hL
  · omega
  · exact fun k hlt hle => hagree k (by omega)
  · exact fun l hl hL => hadopts.matching hP hl hL

theorem Raft.deliver_kept {rf : Raft n C} (hmatch : Matching Log.term rf.log L) {messages : List (AppendEntriesArgs n C)}
    (hm : ∀ args ∈ messages, args.SentFrom L term) :
    Matching Log.term (rf.deliver messages).log L ∧ rf.Kept L (rf.deliver messages) := by
  induction messages generalizing rf with
  | nil => exact ⟨hmatch, .of_eq rfl rfl⟩
  | cons args messages ih =>
    obtain ⟨hmatch', hkept, -⟩ := (hm args List.mem_cons_self).kept hmatch rfl
    obtain ⟨hmatch'', hkept'⟩ := ih hmatch' fun args' h => hm args' (List.mem_cons_of_mem _ h)
    exact ⟨hmatch'', hkept.trans hkept'⟩

/-- For a log that matches `L` and any sequence of messages of one term built from prefixes of `L`, seen at any of its
    messages: if the message is accepted, the log then agrees with `L` up to its last entry; and neither it nor the
    messages after it change an entry shared with `L`, lower `commitIndex`, commit an entry that is not one of `L`, or
    make the log cease to match a third log that matches it and `L`. -/
theorem acknowledged_entries_stay {rf : Raft n C} (hmatch : Matching Log.term rf.log L)
    {before later : List (AppendEntriesArgs n C)} {args : AppendEntriesArgs n C}
    (hm : ∀ args' ∈ before ++ args :: later, args'.SentFrom L term) :
    (((rf.deliver before).appendEntries args).2.success = true →
      ∀ k ≤ args.prevLogIndex + args.entries.length, ∃ e, L[k]? = some e ∧
        ((rf.deliver before).appendEntries args).1.log[k]? = some e) ∧
    (rf.deliver before).Kept L ((rf.deliver before).appendEntries args).1 ∧
    ((rf.deliver before).appendEntries args).1.Kept L
      (((rf.deliver before).appendEntries args).1.deliver later) := by
  obtain ⟨hbefore, hafter⟩ := List.forall_mem_append.mp hm
  obtain ⟨hargs, hlater⟩ := List.forall_mem_cons.mp hafter
  obtain ⟨hmatch₁, -⟩ := Raft.deliver_kept hmatch hbefore
  obtain ⟨hmatch₂, hkept, hagree⟩ := hargs.kept hmatch₁ rfl
  exact ⟨hagree, hkept, (Raft.deliver_kept hmatch₂ hlater).2⟩

end Deliver

/-- A leader of term 2 with the first entries of its log. -/
def sender (log : List (Log Nat)) (commitIndex : Nat) : Raft 2 Nat :=
  { Raft.fresh 0 makePersister with state := .leader, currentTerm := 2, log, commitIndex }

theorem acknowledged_entries_stay_repeated :
    (((Raft.fresh 1 makePersister : Raft 2 Nat).deliver
      [⟨2, 0, 0, 0, [⟨1, some 10⟩, ⟨2, some 11⟩], 1⟩]).appendEntries ⟨2, 0, 0, 0, [⟨1, some 10⟩], 0⟩).1.log[2]? =
      some ⟨2, some 11⟩ := by
  have hm : ∀ args' ∈ [(⟨2, 0, 0, 0, [⟨1, some 10⟩, ⟨2, some 11⟩], 1⟩ : AppendEntriesArgs 2 Nat)] ++
      ⟨2, 0, 0, 0, [⟨1, some 10⟩], 0⟩ :: [], args'.SentFrom [⟨0, none⟩, ⟨1, some 10⟩, ⟨2, some 11⟩] 2 := by
    intro args' h
    rcases List.mem_cons.mp h with rfl | h
    · exact ⟨sender [⟨0, none⟩, ⟨1, some 10⟩, ⟨2, some 11⟩] 1, List.prefix_rfl, rfl, by decide, Or.inl ⟨1, rfl⟩⟩
    · obtain rfl := List.mem_singleton.mp h
      exact ⟨sender [⟨0, none⟩, ⟨1, some 10⟩] 0, ⟨[⟨2, some 11⟩], rfl⟩, rfl, by decide, Or.inl ⟨1, rfl⟩⟩
  have hmatch : Matching Log.term (Raft.fresh 1 makePersister : Raft 2 Nat).log
      [⟨0, none⟩, ⟨1, some 10⟩, ⟨2, some 11⟩] := by
    intro k e e' he
    cases k with
    | zero => exact fun _ _ => rfl
    | succ k => simp [Raft.fresh] at he
  exact (acknowledged_entries_stay hmatch hm).2.1.shared 2 _ (by decide) rfl

end DistributedLabs
