import DistributedLabs.Raft.Refinement
import Mathlib.Data.List.Triplewise

/-! Log matching of the replication half. It needs nothing of the elections but that one server speaks in each
    term; and it needs that nothing happens to a server between the two sections of an `AppendEntries`, because
    the second section does not look at the term again. -/

namespace DistributedLabs

open ReplicatedLog

variable {n : Nat} {C : Type}

/-! ### The two conditions -/

/-- The second event is a step of a server that falls between the two sections of one `AppendEntries` there. -/
def Event.interrupts : Event n C → Event n C → Event n C → Bool
  | .acted i (.appendEntriesTerm k), .acted j _, .acted i' (.appendEntriesLog k') => i = j && i = i' && k = k'
  | _, _, _ => false

namespace World

/-- In each term one server accepts `Start` or builds `AppendEntries` messages. -/
def OneSpeaker (w : World n C) : Prop :=
  ∀ i j term log log', .spoke i term log ∈ w.events → .spoke j term log' ∈ w.events → i = j

/-- No step of a server falls between the two sections of one `AppendEntries` there. -/
def Uninterrupted (w : World n C) : Prop :=
  w.events.Triplewise fun b e d => Event.interrupts b e d = false

theorem OneSpeaker.of_subset {w w' : World n C} (h : w'.OneSpeaker) (hsub : w.events ⊆ w'.events) : w.OneSpeaker :=
  fun i j term log log' h₁ h₂ => h i j term log log' (hsub h₁) (hsub h₂)

theorem Uninterrupted.before {w w' : World n C} {a : Action n C} (h : w'.Uninterrupted) (hs : w.step a = some w') :
    w.Uninterrupted := by
  obtain ⟨es, -, hw⟩ := step_inv hs
  unfold Uninterrupted at h
  rw [hw] at h
  exact (List.triplewise_append.mp h).1

end World

/-! ### Between the sections -/

section Step
variable {s s' : Cluster n C} {a : Action n C} {es : List (Event n C)}

/-- A call between its sections was there before, or has just begun. -/
theorem step_handling (h : step s a = some (s', es)) {k e : Nat} {c : AppendCall n C}
    (hc : s'.appendCalls[k]? = some c) (hst : c.stage = .handling e) :
    s.appendCalls[k]? = some c ∨
      (a = .appendEntriesTerm k ∧ a.server s = some c.server ∧ (s'.peers c.server).rf.currentTerm = c.args.term) := by
  cases step_appendCall h hc with
  | kept hold => exact Or.inl hold
  | built _ _ hsent =>
    rw [hsent] at hst
    cases hst
  | refused => cases hst
  | begun ha hold _ hle hp =>
    subst ha
    refine Or.inr ⟨rfl, congrArg (Option.map Call.server) hold, ?_⟩
    dsimp only
    rw [hp, Peer.withRf_rf, Raft.catchUp_currentTerm hle]
  | answered => cases hst
  | returned => cases hst

end Step

namespace World

/-- The first section of a call that is between its sections stands in the history, and if its server has not acted
    since, its term is still that of the message. -/
def Begun (w : World n C) : Prop :=
  ∀ (k e : Nat) (c : AppendCall n C), w.cluster.appendCalls[k]? = some c → c.stage = .handling e →
    ∃ before since, w.events = before ++ .acted c.server (.appendEntriesTerm k) :: since ∧
      ((∀ b, .acted c.server b ∉ since) → (w.rf c.server).currentTerm = c.args.term)

theorem Begun.step {w w' : World n C} {a : Action n C} (h : w.Begun) (hs : w.step a = some w') : w'.Begun := by
  intro k e c hc hst
  obtain ⟨es, hstep, hw⟩ := step_inv hs
  obtain ⟨i, hi, hother⟩ := step_other hstep
  rw [hi] at hw
  rcases step_handling hstep hc hst with hold | ⟨rfl, hserver, hterm⟩
  · obtain ⟨before, since, hev, hsince⟩ := h k e c hold hst
    refine ⟨before, since ++ .acted i a :: es, ?_, fun hno => ?_⟩
    · rw [hw, hev]
      simp
    · have hne : c.server ≠ i := by
        rintro hci
        rw [hci] at hno
        exact hno a (List.mem_append_right _ List.mem_cons_self)
      have hsame : w'.rf c.server = w.rf c.server := by
        unfold rf
        rw [hother c.server hne]
      rw [hsame]
      exact hsince fun b hb => hno b (List.mem_append_left _ hb)
  · rw [hserver] at hi
    cases hi
    exact ⟨w.events, es, by rw [hw]; rfl, fun _ => hterm⟩

/-- In an uninterrupted run the second section of an `AppendEntries` finds the term of the message. -/
theorem Begun.acceptInTerm {w w' : World n C} {a : Action n C} (h : w.Begun) (hu : w'.Uninterrupted)
    (hs : w.step a = some w') : Guard.AcceptInTerm w.cluster a := by
  intro c hc _ _
  cases a with
  | appendEntriesLog k =>
    obtain ⟨es, hstep, hw⟩ := step_inv hs
    obtain ⟨c', _, _, hc', -, hst, -⟩ := Step.appendEntriesLog_inv hstep
    have hc : w.cluster.appendCalls[k]? = some c := hc
    rw [hc] at hc'
    cases hc'
    obtain ⟨before, since, hev, hsince⟩ := h k _ c hc hst
    refine (hsince fun b hb => ?_).symm
    have hi : (Action.appendEntriesLog k : Action n C).server w.cluster = some c.server :=
      congrArg (Option.map Call.server) hc
    unfold Uninterrupted at hu
    rw [hw, hi, hev, List.append_assoc, List.cons_append] at hu
    have hu := (List.triplewise_cons.mp (List.triplewise_append.mp hu).2.1).1
    have hpair := (List.pairwise_append.mp hu).2.2 _ hb (.acted c.server (.appendEntriesLog k)) List.mem_cons_self
    simp [Event.interrupts] at hpair
  | _ => cases hc

/-- What holds along any run, whoever leads: the replicas exist as long as the two conditions held. -/
structure Replicated (w : World n C) : Prop where
  durable : w.cluster.Durable
  named : w.cluster.Named
  shaped : w.cluster.LogsShaped
  begun : w.Begun
  refines : w.OneSpeaker → w.Uninterrupted → ∃ m, Sound Log.term Log.fake m ∧ Refines w m

theorem Replicated.step {w w' : World n C} {a : Action n C} (h : w.Replicated) (hs : w.step a = some w') :
    w'.Replicated := by
  obtain ⟨es, hstep, -⟩ := step_inv hs
  refine ⟨h.durable.step hstep, h.named.step hstep, h.shaped.step h.durable hstep, h.begun.step hs, fun hone hun => ?_⟩
  have hsub : w.events ⊆ w'.events := by
    obtain ⟨_, -, hw⟩ := step_inv hs
    rw [hw]
    exact List.subset_append_left _ _
  obtain ⟨m, hsound, href⟩ := h.refines (hone.of_subset hsub) (hun.before hs)
  -- Whoever speaks owns the term already or finds it without owner.
  have hspeak : ∀ {i t l}, .spoke i t l ∈ w'.events → EventStep w.cluster a w'.cluster (.spoke i t l) →
      m.owner t = some i ∨ (m.owner t = none ∧ True) := by
    intro i t l he _
    cases ho : m.owner t with
    | none => exact Or.inr ⟨rfl, trivial⟩
    | some j =>
      obtain ⟨l', hl'⟩ := href.owner.mp ho
      exact Or.inl (congrArg some (hone j i t l' l (hsub hl') he))
  obtain ⟨m', hsteps, href'⟩ := href.step (G := fun _ _ => True) hsound h.durable h.named h.shaped hspeak
    (h.begun.acceptInTerm hun hs) hs
  exact ⟨m', hsound.steps hsteps, href'⟩

theorem replicated_init : (init n C).Replicated where
  durable i := Raft.durable_fresh i
  named := Cluster.named_init
  shaped := Cluster.logsShaped_init
  begun k e c hc := by simp [init, Cluster.init] at hc
  refines _ _ := ⟨_, sound_init rfl, refines_init⟩

theorem Reachable.replicated {P : Cluster n C → Action n C → Prop} {w : World n C} (hw : Reachable P w) :
    w.Replicated :=
  Steps.keeps (fun _ _ _ h _ hs => h.step hs) hw replicated_init

end World

/-- In every run in which one server speaks in each term and no step of a server falls between the two sections of
    one of its `AppendEntries`: logs that hold entries of the same term at an index are the same up to there. -/
theorem log_matching {w : World n C} (hw : World.Reachable World.Any w) (hone : w.OneSpeaker) (hun : w.Uninterrupted)
    {i j : Fin n} {k : Nat} {e e' : Log C} (hi : (w.rf i).log[k]? = some e) (hj : (w.rf j).log[k]? = some e')
    (hterm : e.term = e'.term) : ∀ k' ≤ k, (w.rf i).log[k']? = (w.rf j).log[k']? := by
  obtain ⟨m, hsound, href⟩ := hw.replicated.refines hone hun
  rw [← href.log] at hi hj
  have htake := (hsound.logs i).agree (hsound.logs j) k e e' hi hj hterm
  intro k' hk
  rw [← href.log i, ← href.log j, ← List.getElem?_take_of_lt (Nat.lt_succ_of_le hk), htake,
    List.getElem?_take_of_lt (Nat.lt_succ_of_le hk)]

/-- The server that an event reports to speak. -/
def Event.speaker : Event n C → Option (Fin n)
  | .spoke i _ _ => some i
  | _ => none

theorem World.oneSpeaker_of_speaker {w : World n C} {i : Fin n} (h : ∀ e ∈ w.events, ∀ j ∈ e.speaker, j = i) :
    w.OneSpeaker := fun j k _ _ _ hj hk => (h _ hj j rfl).trans (h _ hk k rfl).symm

instance triplewiseDecidable {α : Type*} (p : α → α → α → Prop) [∀ a b c, Decidable (p a b c)] :
    (l : List α) → Decidable (l.Triplewise p)
  | [] => isTrue .nil
  | _ :: l =>
    have := triplewiseDecidable p l
    decidable_of_iff _ List.triplewise_cons.symm

instance (w : World n C) : Decidable w.Uninterrupted := triplewiseDecidable _ _

/-- Server 0 is elected, accepts a command and replicates it to server 1. -/
def replicateOne : List (Action 3 Nat) :=
  [.startElectionTimer 0, .candidate 0, .requestVote 0, .sendRequestVote 0, .poll 0 0, .leader 0, .start 0 (some 7),
    .leaderLoop 0, .appendEntriesTerm 1, .appendEntriesLog 1]

theorem log_matching_replicated : ∃ w, (World.init 3 Nat).exec World.Any replicateOne = some w ∧
    (w.rf 0).log[1]? = some ⟨1, some 7⟩ ∧ (w.rf 1).log[1]? = some ⟨1, some 7⟩ ∧
    ∀ k ≤ 1, (w.rf 0).log[k]? = (w.rf 1).log[k]? := by
  obtain ⟨w, hw, h⟩ := World.exec_any World.Any (World.init 3 Nat) replicateOne
    (fun w => decide ((w.rf 0).log[1]? = some (⟨1, some 7⟩ : Log Nat) ∧
      (w.rf 1).log[1]? = some (⟨1, some 7⟩ : Log Nat) ∧
      w.Uninterrupted ∧ ∀ e ∈ w.events, ∀ j ∈ e.speaker, j = 0)) (by decide)
  obtain ⟨h0, h1, hun, hone⟩ := of_decide_eq_true h
  exact ⟨w, hw, h0, h1, log_matching (World.exec_steps hw) (World.oneSpeaker_of_speaker hone) hun h0 h1 rfl⟩

end DistributedLabs
