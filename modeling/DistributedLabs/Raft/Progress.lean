import DistributedLabs.Raft.Backup

/-! What a leader makes of the replies. Each reply that it takes up overwrites what an earlier one recorded, so that the
    progress of a leadership depends on the order in which replies come: every message covers the whole log it is built
    from, and the log of a leader grows, so that a later message covers at least as much. -/

namespace DistributedLabs

variable {n : Nat} {C : Type}

/-! ### The condition -/

/-- The reply that the caller took up. -/
def Call.taken {Args Reply : Type} (c : Call n Args Reply) : Option Reply :=
  match c.stage with
  | .returned reply => some reply
  | _ => none

/-- A call of server `i` to `p` whose acknowledgement was taken up and recorded. -/
def Call.Acknowledged (c : AppendCall n C) (i p : Fin n) : Prop :=
  c.caller = i ∧ c.server = p ∧ ∃ reply ∈ c.taken, reply.success = true ∧ c.args.term = reply.term

instance (c : AppendCall n C) (i p : Fin n) : Decidable (c.Acknowledged i p) :=
  inferInstanceAs (Decidable (_ ∧ _ ∧ ∃ reply ∈ c.taken, _))

namespace Action

/-- The call whose second section the action runs. -/
def handled : Action n C → Option Nat
  | .appendEntriesLog k => some k
  | _ => none

/-- The call whose reply the action takes up. -/
def takenUp : Action n C → Option Nat
  | .sendAppendEntries k => some k
  | _ => none

end Action

namespace Guard

variable (i : Fin n) (first : Nat) (s : Cluster n C) (a : Action n C)

/-- A step in the leadership of server `i`, which ends when the server is no longer LEADER or `leader()` begins anew. -/
def InOffice : Prop := (s.peers i).rf.state = .leader ∧ a.installed ≠ some i

/-- Entries that reach server `i` are its own, from the messages that stand in the table from position `first` on. -/
def OwnEntries : Prop :=
  ∀ k ∈ a.handled, ∀ c ∈ s.appendCalls[k]?, c.server = i → c.args.entries ≠ [] → c.caller = i ∧ first ≤ k

/-- The replies of the right term that server `i` takes up are replies to these messages. Acknowledgements of a peer are
    taken up in the order in which the messages were built, and no refusal is taken up after an acknowledgement. -/
def InOrder : Prop :=
  ∀ k ∈ a.takenUp, ∀ c ∈ s.appendCalls[k]?, c.caller = i → ∀ reply ∈ c.reply, c.args.term = reply.term → first ≤ k ∧
    (reply.success = true → ∀ d ∈ s.appendCalls.drop (k + 1), ¬ d.Acknowledged i c.server) ∧
    (reply.success = false → ∀ d ∈ s.appendCalls.drop first, ¬ d.Acknowledged i c.server)

/-- A log that turns out to be too short for a message of server `i` holds a real entry. -/
def PeersNotEmpty : Prop :=
  ∀ c ∈ a.entriesRequest s, c.caller = i → (s.peers c.server).rf.log.length ≤ c.args.prevLogIndex →
    2 ≤ (s.peers c.server).rf.log.length

/-- A step in a leadership of server `i` whose messages stand in the table from position `first` on. -/
structure Leading : Prop where
  inOffice : InOffice i s a
  ownEntries : OwnEntries i first s a
  inOrder : InOrder i first s a
  peersNotEmpty : PeersNotEmpty i s a

instance : Decidable (InOffice i s a) := inferInstanceAs (Decidable (_ ∧ _))

instance : Decidable (OwnEntries i first s a) := inferInstanceAs (Decidable (∀ k ∈ a.handled, _))

instance : Decidable (InOrder i first s a) := inferInstanceAs (Decidable (∀ k ∈ a.takenUp, _))

instance : Decidable (PeersNotEmpty i s a) := inferInstanceAs (Decidable (∀ c ∈ a.entriesRequest s, _))

instance : Decidable (Leading i first s a) :=
  decidable_of_iff (InOffice i s a ∧ OwnEntries i first s a ∧ InOrder i first s a ∧ PeersNotEmpty i s a)
    ⟨fun ⟨h₁, h₂, h₃, h₄⟩ => ⟨h₁, h₂, h₃, h₄⟩, fun ⟨h₁, h₂, h₃, h₄⟩ => ⟨h₁, h₂, h₃, h₄⟩⟩

end Guard

/-! ### The messages of a leadership -/

/-- A message carries what stands in `log` after its `prevLogIndex`, up to its reach. -/
def AppendEntriesArgs.PartOf (args : AppendEntriesArgs n C) (log : List (Log C)) : Prop :=
  args.reach ≤ log.length ∧ args.entries = (log.take args.reach).drop (args.prevLogIndex + 1)

namespace AppendEntriesArgs.PartOf

variable {args : AppendEntriesArgs n C} {log log' : List (Log C)}

theorem mono (h : args.PartOf log) (hlog : log <+: log') : args.PartOf log' := by
  obtain ⟨rest, rfl⟩ := hlog
  refine ⟨Nat.le_trans h.1 (List.prefix_append _ _).length_le, ?_⟩
  rw [List.take_append_of_le_length h.1]
  exact h.2

theorem of_built {rf : Raft n C} (h : rf.BuiltFrom args) : args.PartOf rf.log := by
  refine ⟨Nat.le_of_eq h.reach, ?_⟩
  rw [h.reach, List.take_length]
  exact h.entries

/-- A server that holds what a message carries takes nothing over. -/
theorem acceptEntries (h : args.PartOf log) : Raft.acceptEntries log args.prevLogIndex args.entries = log := by
  unfold Raft.acceptEntries
  split
  · rfl
  · rename_i j hj
    obtain ⟨d, -, ⟨e, he, hne⟩, -⟩ := Raft.conflictEntry_some hj
    have hd := (List.getElem?_eq_some_iff.mp he).1
    rw [h.2, List.getElem?_drop, List.getElem?_take_of_lt (by unfold reach; omega)] at he
    refine absurd ?_ hne
    rw [show args.prevLogIndex + 0 + d + 1 = args.prevLogIndex + 1 + d by omega, he]
    rfl

end AppendEntriesArgs.PartOf

/-- What holds in a leadership of server `i` whose messages stand in the table from position `first` on. -/
structure Cluster.Office (s : Cluster n C) (i : Fin n) (first : Nat) : Prop where
  built : ∀ k c, first ≤ k → s.appendCalls[k]? = some c → c.caller = i → c.args.PartOf (s.peers i).rf.log
  ordered : ∀ k k' c c', first ≤ k → k ≤ k' → s.appendCalls[k]? = some c → s.appendCalls[k']? = some c' →
    c.caller = i → c'.caller = i → c.args.reach ≤ c'.args.reach
  usable : ∀ k c, first ≤ k → s.appendCalls[k]? = some c → c.caller = i → ∀ reply, c.stage = .replied reply →
    reply.Usable c.args.term
  recorded : ∀ p, 0 < (s.peers i).rf.matchIndex p → ∃ k c, first ≤ k ∧ s.appendCalls[k]? = some c ∧
    c.Acknowledged i p ∧ (s.peers i).rf.matchIndex p + 1 = c.args.reach
  ahead : ∀ p, (s.peers i).rf.matchIndex p < (s.peers i).rf.nextIndex p

section Step
variable {s s' : Cluster n C} {a : Action n C} {es : List (Event n C)} {i : Fin n} {first : Nat}

theorem Call.Acknowledged.step {c : AppendCall n C} {p : Fin n} (h : c.Acknowledged i p)
    (hs : step s a = some (s', es)) {k : Nat} (hc : s.appendCalls[k]? = some c) : s'.appendCalls[k]? = some c := by
  obtain ⟨-, -, reply, hr, -⟩ := h
  unfold Call.taken at hr
  split at hr
  · rename_i reply' hst
    exact step_returned hs hc hst
  · cases hr

namespace Cluster.Office

/-- The log of a leader grows: the entries that reach it are its own. -/
theorem log_grows (h : s.Office i first) (hg : Guard.Leading i first s a)
    (hs : DistributedLabs.step s a = some (s', es)) (hl : (s'.peers i).rf.state = .leader) :
    (s.peers i).rf.log <+: (s'.peers i).rf.log := by
  have hwrite := (step_rf hs i).write
  generalize (s'.peers i).rf = rf at hwrite hl
  cases hwrite with
  | append command => exact List.prefix_append _ _
  | catchUp => rw [Raft.catchUp_log]
  | vote => rw [Raft.vote_log, Raft.catchUp_log]
  | @accept k c _ hc hi _ _ _ ha =>
    subst ha
    rw [Raft.accept_log]
    by_cases hnil : c.args.entries = []
    · rw [hnil]
      exact List.prefix_rfl
    · obtain ⟨hcaller, hk⟩ := hg.ownEntries k rfl c hc hi hnil
      rw [(h.built k c hk hc hcaller).acceptEntries]
  | crash hmake =>
    rw [(Raft.make_me hmake).2] at hl
    cases hl
  | _ => exact List.prefix_rfl

theorem built_step (h : s.Office i first) (hlog : (s.peers i).rf.log <+: (s'.peers i).rf.log)
    (hs : DistributedLabs.step s a = some (s', es)) {k : Nat} {c : AppendCall n C} (hk : first ≤ k)
    (hc : s'.appendCalls[k]? = some c) (hcaller : c.caller = i) : c.args.PartOf (s'.peers i).rf.log := by
  refine AppendEntriesArgs.PartOf.mono ?_ hlog
  rcases (step_appendCall hs hc).origin with ⟨d, hd, hdc, -, hargs⟩ | ⟨-, hb⟩
  · rw [← hargs]
    exact h.built k d hk hd (hdc.trans hcaller)
  · rw [hcaller] at hb
    exact .of_built hb

/-- A message built in this step covers the whole log, and so at least what the earlier ones cover. -/
theorem ordered_step (h : s.Office i first) (hs : DistributedLabs.step s a = some (s', es)) {k k' : Nat}
    {c c' : AppendCall n C} (hk : first ≤ k) (hkk : k ≤ k') (hc : s'.appendCalls[k]? = some c)
    (hc' : s'.appendCalls[k']? = some c') (hi : c.caller = i) (hi' : c'.caller = i) : c.args.reach ≤ c'.args.reach := by
  rcases (step_appendCall hs hc).origin with ⟨d, hd, hdc, -, hargs⟩ | ⟨hnew, hb⟩
  · rw [← hargs]
    rcases (step_appendCall hs hc').origin with ⟨d', hd', hdc', -, hargs'⟩ | ⟨-, hb'⟩
    · rw [← hargs']
      exact h.ordered k k' d d' hk hkk hd hd' (hdc.trans hi) (hdc'.trans hi')
    · rw [hb'.reach, hi']
      exact (h.built k d hk hd (hdc.trans hi)).1
  · rcases (step_appendCall hs hc').origin with ⟨d', hd', -⟩ | ⟨-, hb'⟩
    · have hlt := (List.getElem?_eq_some_iff.mp hd').1
      omega
    · rw [hb.reach, hb'.reach, hi, hi']

theorem usable_step (h : s.Office i first) (hshaped : s.LogsShaped) (hfake : s.StartsAtFake)
    (hg : Guard.Leading i first s a) (hs : DistributedLabs.step s a = some (s', es)) {k : Nat} {c : AppendCall n C}
    (hk : first ≤ k) (hc : s'.appendCalls[k]? = some c) (hi : c.caller = i) {reply : AppendEntriesReply}
    (hst : c.stage = .replied reply) : reply.Usable c.args.term := by
  cases step_appendCall hs hc with
  | kept hold => exact h.usable k c hk hold hi reply hst
  | built _ _ hsent =>
    rw [hsent] at hst
    cases hst
  | refused _ _ _ hlt =>
    cases hst
    intro hterm
    dsimp only at hterm
    omega
  | begun => cases hst
  | @answered d _ _ ha hold _ hl =>
    cases hst
    subst ha
    exact (hshaped.logs d.server).usable (hfake d (List.mem_of_getElem? hold)) (hg.peersNotEmpty d hold hi) hl
  | returned => cases hst

/-- What an earlier acknowledgement recorded is not more than what the one taken up now records. -/
theorem matchIndex_le (h : s.Office i first) {k : Nat} {c : AppendCall n C} (hg : Guard.Leading i first s (.sendAppendEntries k))
    (hc : s.appendCalls[k]? = some c) (hi : c.caller = i) {reply : AppendEntriesReply} (hst : c.stage = .replied reply)
    (hterm : c.args.term = reply.term) (hsucc : reply.success = true) :
    (s.peers i).rf.matchIndex c.server ≤ c.args.prevLogIndex + c.args.entries.length := by
  by_cases hpos : 0 < (s.peers i).rf.matchIndex c.server
  · obtain ⟨k₀, c₀, hk₀, hc₀, hack, hreach⟩ := h.recorded c.server hpos
    have hle : k₀ ≤ k := by
      by_contra hlt
      refine (hg.inOrder k rfl c hc hi reply (Call.reply_of_replied hst) hterm).2.1 hsucc c₀ ?_ hack
      refine List.mem_of_getElem? (i := k₀ - (k + 1)) ?_
      rw [List.getElem?_drop, show k + 1 + (k₀ - (k + 1)) = k₀ by omega]
      exact hc₀
    have hle := h.ordered k₀ k c₀ c hk₀ hle hc₀ hc hack.1 hi
    unfold AppendEntriesArgs.reach at hle hreach
    omega
  · omega

/-- A peer that refuses a message has no match recorded. -/
theorem matchIndex_of_refusal (h : s.Office i first) {k : Nat} {c : AppendCall n C}
    (hg : Guard.Leading i first s (.sendAppendEntries k)) (hc : s.appendCalls[k]? = some c) (hi : c.caller = i)
    {reply : AppendEntriesReply} (hst : c.stage = .replied reply) (hterm : c.args.term = reply.term)
    (hsucc : reply.success = false) : (s.peers i).rf.matchIndex c.server = 0 := by
  by_contra hne
  obtain ⟨k₀, c₀, hk₀, hc₀, hack, -⟩ := h.recorded c.server (Nat.pos_of_ne_zero hne)
  refine (hg.inOrder k rfl c hc hi reply (Call.reply_of_replied hst) hterm).2.2 hsucc c₀ ?_ hack
  refine List.mem_of_getElem? (i := k₀ - first) ?_
  rw [List.getElem?_drop, Nat.add_sub_cancel' hk₀]
  exact hc₀

/-- What a step of a leadership does to the two indices of the leader: nothing, or it records an acknowledgement that
    reaches as far as the last one, or it moves `nextIndex` of a peer without a match. -/
theorem indices_step (h : s.Office i first) (hg : Guard.Leading i first s a)
    (hs : DistributedLabs.step s a = some (s', es)) (hl : (s'.peers i).rf.state = .leader) :
    ((s'.peers i).rf.matchIndex = (s.peers i).rf.matchIndex ∧ (s'.peers i).rf.nextIndex = (s.peers i).rf.nextIndex) ∨
    (∃ k c, first ≤ k ∧ s'.appendCalls[k]? = some c ∧ c.Acknowledged i c.server ∧
      (s.peers i).rf.matchIndex c.server ≤ c.args.prevLogIndex + c.args.entries.length ∧
      (s'.peers i).rf = (s.peers i).rf.recordMatch c.server (c.args.prevLogIndex + c.args.entries.length)) ∨
    (∃ server index, (s.peers i).rf.matchIndex server = 0 ∧ 0 < index ∧
      (s'.peers i).rf = (s.peers i).rf.moveNext server index) := by
  cases (step_rf hs i).indices with
  | kept hnext hmatch => exact Or.inl ⟨hmatch, hnext⟩
  | installed ha =>
    subst ha
    exact absurd rfl hg.inOffice.2
  | @taken k c reply ha hc hi hst hrf =>
    subst ha
    have hr := Call.reply_of_replied hst
    rcases Raft.sendAppendEntries_cases (s.peers i).rf c.server c.args reply with
      ⟨-, heq⟩ | ⟨-, -, heq⟩ | ⟨hterm, -, hsucc, heq⟩ | ⟨hterm, -, hsucc, heq⟩
    · rw [hrf, heq]
      exact Or.inl ⟨rfl, rfl⟩
    · rw [hrf, heq] at hl
      cases hl
    · have hle := h.matchIndex_le hg hc hi hst hterm hsucc
      refine Or.inr (Or.inl ⟨k, { c with stage := .returned reply }, (hg.inOrder k rfl c hc hi reply hr hterm).1, ?_,
        ⟨hi, rfl, reply, rfl, hsucc, hterm⟩, hle, hrf.trans heq⟩)
      obtain ⟨c', reply', hc', hst', -, -, -, rfl⟩ := Step.sendAppendEntries_inv hs
      rw [hc] at hc'
      cases hc'
      rw [hst] at hst'
      cases hst'
      rw [Cluster.setAppendStage_appendCalls]
      exact List.getElem?_set_self (List.getElem?_eq_some_iff.mp hc).1
    · have hpos := h.usable k c ((hg.inOrder k rfl c hc hi reply hr hterm).1) hc hi reply hst hterm.symm hsucc
      refine Or.inr (Or.inr ⟨c.server, _, h.matchIndex_of_refusal hg hc hi hst hterm hsucc, ?_, hrf.trans heq⟩)
      rcases (s.peers i).rf.rollback_cases reply with ⟨h0, hback⟩ | ⟨-, j, -, -, hback⟩ | ⟨hne, hback⟩ <;> rw [hback]
      · exact hpos h0
      · exact Nat.succ_pos j
      · exact Nat.pos_of_ne_zero hne
  | restarted _ hmake =>
    rw [(Raft.make_me hmake).2] at hl
    cases hl

/-- One step of a leadership keeps the office, and lowers no `matchIndex`. -/
theorem step (h : s.Office i first) (hshaped : s.LogsShaped) (hfake : s.StartsAtFake) (hg : Guard.Leading i first s a)
    (hs : DistributedLabs.step s a = some (s', es)) (hl : (s'.peers i).rf.state = .leader) :
    s'.Office i first ∧ ∀ p, (s.peers i).rf.matchIndex p ≤ (s'.peers i).rf.matchIndex p := by
  have hlog := h.log_grows hg hs hl
  have before : ∀ p, 0 < (s.peers i).rf.matchIndex p → ∃ k c, first ≤ k ∧ s'.appendCalls[k]? = some c ∧
      c.Acknowledged i p ∧ (s.peers i).rf.matchIndex p + 1 = c.args.reach := by
    intro p hpos
    obtain ⟨k, c, hk, hc, hack, hreach⟩ := h.recorded p hpos
    exact ⟨k, c, hk, hack.step hs hc, hack, hreach⟩
  -- The table and the log are as they are, whatever happens to the indices.
  have office := fun hrecorded hahead => (⟨fun k c hk hc hi => h.built_step hlog hs hk hc hi,
    fun k k' c c' hk hkk hc hc' hi hi' => h.ordered_step hs hk hkk hc hc' hi hi',
    fun k c hk hc hi reply hst => h.usable_step hshaped hfake hg hs hk hc hi hst, hrecorded, hahead⟩ : s'.Office i first)
  rcases h.indices_step hg hs hl with ⟨hmatch, hnext⟩ | ⟨k, c, hk, hc, hack, hle, hrf⟩ | ⟨server, index, h0, hpos, hrf⟩
  · rw [hmatch, hnext] at office
    rw [hmatch]
    exact ⟨office before h.ahead, fun _ => Nat.le_refl _⟩
  · rw [hrf] at office ⊢
    refine ⟨office (fun p hpos => ?_) (fun p => ?_), fun p => ?_⟩ <;> by_cases hp : p = c.server
    · subst hp
      refine ⟨k, c, hk, hc, hack, ?_⟩
      simp [Raft.setIndex, AppendEntriesArgs.reach]
    · simp only [Raft.recordMatch_matchIndex, Raft.setIndex, if_neg hp] at hpos ⊢
      exact before p hpos
    · simp [Raft.setIndex, hp]
    · simpa [Raft.setIndex, hp] using h.ahead p
    · simpa [Raft.setIndex, hp] using hle
    · simp [Raft.setIndex, hp]
  · rw [hrf] at office ⊢
    refine ⟨office before (fun p => ?_), fun _ => Nat.le_refl _⟩
    by_cases hp : p = server
    · simpa [Raft.setIndex, hp, h0] using hpos
    · simpa [Raft.setIndex, hp] using h.ahead p

end Cluster.Office

end Step

namespace World

variable {P : Cluster n C → Action n C → Prop} {w w' : World n C} {i : Fin n}

/-- `leader()` begins an office. -/
theorem office_init (hw : Reachable P w) (hinstall : w.step (.leader i) = some w') :
    w'.cluster.Office i w'.cluster.appendCalls.length := by
  obtain ⟨es, hcluster, -⟩ := step_inv hinstall
  obtain ⟨-, -, hw', -⟩ := Step.leader_inv hcluster
  have hrf : (w'.cluster.peers i).rf = (w.rf i).leader := rf_of_setPeer hw' rfl
  have none : ∀ {k : Nat} {c : AppendCall n C}, w'.cluster.appendCalls.length ≤ k →
      w'.cluster.appendCalls[k]? ≠ some c := by
    intro k c hk hc
    exact absurd (List.getElem?_eq_some_iff.mp hc).1 (Nat.not_lt.mpr hk)
  refine ⟨fun k c hk hc => absurd hc (none hk), fun k _ c _ hk _ hc => absurd hc (none hk),
    fun k c hk hc => absurd hc (none hk), ?_, ?_⟩ <;> rw [hrf]
  · exact fun _ hpos => absurd hpos (Nat.lt_irrefl 0)
  · exact fun _ => (hw.logsShaped.logs i).length_pos

/-- What one step of a leadership keeps, the leadership keeps. -/
theorem Steps.office {first : Nat} (hs : Steps (Guard.Leading i first) w w') (hw : Reachable Any w)
    (h : w.cluster.Office i first) (hl : (w'.rf i).state = .leader) :
    (Reachable Any w' ∧ w'.cluster.Office i first) ∧ ∀ p, (w.rf i).matchIndex p ≤ (w'.rf i).matchIndex p := by
  unfold Steps Run.Steps at hs
  induction hs with
  | refl => exact ⟨⟨hw, h⟩, fun _ => Nat.le_refl _⟩
  | tail _ hnext ih =>
    obtain ⟨a, hg, hstep⟩ := hnext
    obtain ⟨es, hcluster, -⟩ := step_inv hstep
    obtain ⟨⟨hw₁, h₁⟩, hle⟩ := ih hg.inOffice.1
    obtain ⟨h₂, hle'⟩ := h₁.step hw₁.logsShaped hw₁.startsAtFake hg hcluster hl
    exact ⟨⟨.tail hw₁ ⟨a, trivial, hstep⟩, h₂⟩, fun p => Nat.le_trans (hle p) (hle' p)⟩

end World

/-- From its initialisation in `leader()` on, in every leadership in which acknowledgements are taken up in the order of
    their messages and no refusal after an acknowledgement, among the conditions above: `matchIndex` never decreases,
    and `nextIndex` stays above it. -/
theorem progress_not_undone {w₀ w₁ w₂ w₃ : World n C} {i : Fin n} (hw : World.Reachable World.Any w₀)
    (hinstall : w₀.step (.leader i) = some w₁)
    (h₁₂ : World.Steps (Guard.Leading i w₁.cluster.appendCalls.length) w₁ w₂)
    (h₂₃ : World.Steps (Guard.Leading i w₁.cluster.appendCalls.length) w₂ w₃) (hl : (w₃.rf i).state = .leader)
    (p : Fin n) :
    (w₃.rf i).matchIndex p < (w₃.rf i).nextIndex p ∧ (w₂.rf i).matchIndex p ≤ (w₃.rf i).matchIndex p := by
  have hw₁ : World.Reachable World.Any w₁ := .tail hw ⟨_, trivial, hinstall⟩
  have hoffice := World.office_init hw hinstall
  have hl₂ : (w₂.rf i).state = .leader := by
    rcases h₂₃.cases_head with rfl | ⟨_, ⟨a, hg, -⟩, -⟩
    · exact hl
    · exact hg.inOffice.1
  obtain ⟨⟨hw₂, hoffice₂⟩, -⟩ := h₁₂.office hw₁ hoffice hl₂
  obtain ⟨⟨-, hoffice₃⟩, hle⟩ := h₂₃.office hw₂ hoffice₂ hl
  exact ⟨hoffice₃.ahead p, hle p⟩

/-- Server 0 wins the election of term 1. -/
def elected : List (Action 3 Nat) :=
  [.startElectionTimer 0, .candidate 0, .requestVote 0, .sendRequestVote 0, .poll 0 0]

/-- Its first entry reaches server 1 and is acknowledged. -/
def firstEntry : List (Action 3 Nat) :=
  [.start 0 (some 10), .leaderLoop 0, .appendEntriesTerm 1, .appendEntriesLog 1, .sendAppendEntries 1]

/-- A second round: the next two entries reach server 1 as well. -/
def nextEntries : List (Action 3 Nat) :=
  [.start 0 (some 11), .start 0 (some 12), .leaderLoop 0, .appendEntriesTerm 4, .appendEntriesLog 4, .sendAppendEntries 4]

theorem progress_not_undone_next : ∃ w₂ w₃ : World 3 Nat, (w₂.rf 0).matchIndex 1 = 1 ∧ (w₃.rf 0).matchIndex 1 = 3 ∧
    (w₃.rf 0).matchIndex 1 < (w₃.rf 0).nextIndex 1 ∧ (w₂.rf 0).matchIndex 1 ≤ (w₃.rf 0).matchIndex 1 := by
  obtain ⟨w₀, hw₀, h⟩ := World.exec_any World.Any (World.init 3 Nat) elected
    (fun w₀ => (w₀.step (.leader 0)).any fun (w₁ : World 3 Nat) =>
      (w₁.exec (Guard.Leading 0 w₁.cluster.appendCalls.length) firstEntry).any fun (w₂ : World 3 Nat) =>
        decide ((w₂.rf 0).matchIndex 1 = 1) &&
        (w₂.exec (Guard.Leading 0 w₁.cluster.appendCalls.length) nextEntries).any fun (w₃ : World 3 Nat) =>
          decide ((w₃.rf 0).state = .leader ∧ (w₃.rf 0).matchIndex 1 = 3)) (by decide)
  obtain ⟨w₁, hw₁, h⟩ := (Option.any_eq_true _ _).mp h
  obtain ⟨w₂, hw₂, h⟩ := (Option.any_eq_true _ _).mp h
  obtain ⟨hfirst, h⟩ := Bool.and_eq_true_iff.mp h
  obtain ⟨w₃, hw₃, h⟩ := (Option.any_eq_true _ _).mp h
  obtain ⟨hl, hnext⟩ := of_decide_eq_true h
  exact ⟨w₂, w₃, of_decide_eq_true hfirst, hnext, progress_not_undone (World.exec_steps hw₀) hw₁ (World.exec_steps hw₂)
    (World.exec_steps hw₃) hl 1⟩

/-- Two overlapping rounds of replication to server 1; the reply to the second is taken up first. -/
def overtaken : List (Action 3 Nat) :=
  [.start 0 (some 10), .leaderLoop 0, .start 0 (some 11), .leaderLoop 0, .appendEntriesTerm 1, .appendEntriesLog 1,
    .appendEntriesTerm 4, .appendEntriesLog 4, .sendAppendEntries 4]

/-- A heartbeat that server 1 refuses because it lacks the last entry, after it acknowledged the one before. -/
def refusedHeartbeat : List (Action 3 Nat) :=
  firstEntry ++ [.start 0 (some 11), .startHeartBeat 0, .appendEntriesTerm 3, .appendEntriesLog 3]

/-- In one leadership, `matchIndex` falls from 2 to 1 in the one run; in the other, `nextIndex` falls to `matchIndex`. -/
theorem progress_undone : ∃ w₀ w₁ w₂ w₃ w₂' w₃' : World 3 Nat, World.Reachable World.Any w₀ ∧
    w₀.step (.leader 0) = some w₁ ∧
    (World.Steps (Guard.InOffice 0) w₁ w₂ ∧
      w₂.step (.sendAppendEntries 1) = some w₃ ∧ (w₃.rf 0).state = .leader ∧ (w₂.rf 0).matchIndex 1 = 2 ∧
      (w₃.rf 0).matchIndex 1 = 1) ∧
    (World.Steps (Guard.InOffice 0) w₁ w₂' ∧
      w₂'.step (.sendAppendEntries 3) = some w₃' ∧ (w₃'.rf 0).state = .leader ∧ (w₃'.rf 0).matchIndex 1 = 1 ∧
      (w₃'.rf 0).nextIndex 1 = 1) := by
  obtain ⟨w₀, hw₀, h⟩ := World.exec_any World.Any (World.init 3 Nat) elected
    (fun w₀ => (w₀.step (.leader 0)).any fun (w₁ : World 3 Nat) =>
      ((w₁.exec (Guard.InOffice 0) overtaken).any fun (w₂ : World 3 Nat) =>
        (w₂.step (.sendAppendEntries 1)).any fun (w₃ : World 3 Nat) =>
          decide ((w₃.rf 0).state = .leader ∧ (w₂.rf 0).matchIndex 1 = 2 ∧ (w₃.rf 0).matchIndex 1 = 1)) &&
      ((w₁.exec (Guard.InOffice 0) refusedHeartbeat).any
        fun (w₂ : World 3 Nat) => (w₂.step (.sendAppendEntries 3)).any fun (w₃ : World 3 Nat) =>
          decide ((w₃.rf 0).state = .leader ∧ (w₃.rf 0).matchIndex 1 = 1 ∧ (w₃.rf 0).nextIndex 1 = 1))) (by decide)
  obtain ⟨w₁, hw₁, h⟩ := (Option.any_eq_true _ _).mp h
  obtain ⟨h, h'⟩ := Bool.and_eq_true_iff.mp h
  obtain ⟨w₂, hw₂, h⟩ := (Option.any_eq_true _ _).mp h
  obtain ⟨w₃, hw₃, h⟩ := (Option.any_eq_true _ _).mp h
  obtain ⟨w₂', hw₂', h'⟩ := (Option.any_eq_true _ _).mp h'
  obtain ⟨w₃', hw₃', h'⟩ := (Option.any_eq_true _ _).mp h'
  exact ⟨w₀, w₁, w₂, w₃, w₂', w₃', World.exec_steps hw₀, hw₁,
    ⟨World.exec_steps hw₂, hw₃, of_decide_eq_true h⟩, ⟨World.exec_steps hw₂', hw₃', of_decide_eq_true h'⟩⟩

end DistributedLabs
