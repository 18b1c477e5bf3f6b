import DistributedLabs.Raft.Calls
import DistributedLabs.Raft.Durability

/-! The shape of a log: the fake entry of term 0 at index 0 and nowhere else, terms that never decrease and
    never exceed the server's own. It holds however elections go, because every message in flight carries
    entries of this shape and the splice of `AppendEntries` keeps it. -/

namespace DistributedLabs

variable {n : Nat} {C : Type}

/-! ### Lists of terms -/

/-- A list of terms starts with 0, and goes on with positive terms up to `bound` that never decrease. -/
def Shaped (bound : Nat) (terms : List Nat) : Prop :=
  ∃ rest, terms = 0 :: rest ∧ (∀ t ∈ rest, 0 < t ∧ t ≤ bound) ∧ rest.Pairwise (· ≤ ·)

namespace Shaped

variable {bound : Nat} {terms : List Nat}

theorem mono (h : Shaped bound terms) {bound' : Nat} (hle : bound ≤ bound') : Shaped bound' terms := by
  obtain ⟨rest, rfl, hpos, hsorted⟩ := h
  exact ⟨rest, rfl, fun t ht => ⟨(hpos t ht).1, Nat.le_trans (hpos t ht).2 hle⟩, hsorted⟩

/-- Every term of the list is at most the bound, and every two of them stand in order. -/
theorem pairwise (h : Shaped bound terms) : terms.Pairwise (· ≤ ·) := by
  obtain ⟨rest, rfl, -, hsorted⟩ := h
  exact List.pairwise_cons.mpr ⟨fun t _ => Nat.zero_le t, hsorted⟩

theorem le_bound (h : Shaped bound terms) {t : Nat} (ht : t ∈ terms) : t ≤ bound := by
  obtain ⟨rest, rfl, hpos, -⟩ := h
  rcases List.mem_cons.mp ht with rfl | ht
  · exact Nat.zero_le _
  · exact (hpos t ht).2

theorem zero_iff (h : Shaped bound terms) {k t : Nat} (hk : terms[k]? = some t) : t = 0 ↔ k = 0 := by
  obtain ⟨rest, rfl, hpos, -⟩ := h
  cases k with
  | zero => simp at hk; simp [hk]
  | succ k =>
    rw [List.getElem?_cons_succ] at hk
    have := (hpos t (List.mem_of_getElem? hk)).1
    constructor
    · intro h0
      omega
    · intro h0
      cases h0

theorem append_bound (h : Shaped bound terms) (hb : 0 < bound) : Shaped bound (terms ++ [bound]) := by
  obtain ⟨rest, rfl, hpos, hsorted⟩ := h
  refine ⟨rest ++ [bound], rfl, fun t ht => ?_, ?_⟩
  · rcases List.mem_append.mp ht with ht | ht
    · exact hpos t ht
    · rw [List.mem_singleton.mp ht]
      exact ⟨hb, Nat.le_refl _⟩
  · refine List.pairwise_append.mpr ⟨hsorted, List.pairwise_singleton _ _, fun a ha b hb' => ?_⟩
    rw [List.mem_singleton.mp hb']
    exact (hpos a ha).2

/-- What stands before an index is at most the term there. -/
theorem le_of_mem_take (h : Shaped bound terms) {prev p t : Nat} (hp : terms[prev]? = some p)
    (ht : t ∈ terms.take (prev + 1)) : t ≤ p := by
  have hlen : prev < terms.length := (List.getElem?_eq_some_iff.mp hp).1
  have hsplit : terms.take (prev + 1) = terms.take prev ++ [p] := by
    rw [List.take_add_one, hp]
    rfl
  have hsorted : (terms.take prev ++ [p]).Pairwise (· ≤ ·) :=
    hsplit ▸ h.pairwise.sublist (List.take_sublist _ _)
  rw [hsplit] at ht
  rcases List.mem_append.mp ht with ht | ht
  · exact (List.pairwise_append.mp hsorted).2.2 t ht p (List.mem_singleton_self p)
  · exact Nat.le_of_eq (List.mem_singleton.mp ht)

/-- Entries that follow the term at `prev` in order may replace what stands behind it. -/
theorem splice (h : Shaped bound terms) {prev p : Nat} (hp : terms[prev]? = some p) {es : List Nat}
    (hes : ∀ t ∈ es, p ≤ t ∧ 0 < t ∧ t ≤ bound) (hsorted : es.Pairwise (· ≤ ·)) :
    Shaped bound (terms.take (prev + 1) ++ es) := by
  have hle := fun t ht => h.le_of_mem_take (t := t) hp ht
  obtain ⟨rest, rfl, hpos, hrest⟩ := h
  rw [List.take_succ_cons] at hle ⊢
  refine ⟨rest.take prev ++ es, rfl, fun t ht => ?_, ?_⟩
  · rcases List.mem_append.mp ht with ht | ht
    · exact hpos t (List.mem_of_mem_take ht)
    · exact (hes t ht).2
  · refine List.pairwise_append.mpr ⟨hrest.sublist (List.take_sublist _ _), hsorted, fun a ha b hb => ?_⟩
    exact Nat.le_trans (hle a (List.mem_cons_of_mem _ ha)) (hes b hb).1

end Shaped

/-! ### The splice of `AppendEntries` -/

namespace Raft

/-- Up to the entry where the loop stops, log and message agree in their terms. -/
theorem conflictEntry_terms {log : List (Log C)} {prev i j : Nat} {entries : List (Log C)}
    (h : conflictEntry log prev i entries = some j) :
    i ≤ j ∧ j < i + entries.length ∧
      ((log.drop (prev + i + 1)).take (j - i)).map Log.term = (entries.take (j - i)).map Log.term := by
  induction entries generalizing i with
  | nil => cases h
  | cons entry entries ih =>
    unfold conflictEntry at h
    split at h
    · rename_i hterm
      obtain ⟨h1, h2, h3⟩ := ih h
      have hlen : (entry :: entries).length = entries.length + 1 := rfl
      refine ⟨by omega, by omega, ?_⟩
      cases hx : log[prev + i + 1]? with
      | none => rw [hx] at hterm; cases hterm
      | some x =>
        rw [hx] at hterm
        have hx' : x.term = entry.term := by simpa using hterm
        have hdrop : log.drop (prev + i + 1) = x :: log.drop (prev + (i + 1) + 1) := by
          rw [show prev + (i + 1) + 1 = prev + i + 1 + 1 by omega]
          exact List.drop_eq_getElem?_toList_append.trans (by rw [hx]; rfl)
        have hsub : j - i = (j - (i + 1)) + 1 := by omega
        rw [hdrop, hsub, List.take_succ_cons, List.take_succ_cons, List.map_cons, List.map_cons, h3, hx']
    · cases h
      simp

/-- An accepted message leaves the log alone, or leaves the terms of its prefix followed by those of the
    message: below the conflict the log already has the terms of the message. -/
theorem acceptEntries_terms (log : List (Log C)) (prev : Nat) (entries : List (Log C)) :
    acceptEntries log prev entries = log ∨
      (acceptEntries log prev entries).map Log.term = (log.take (prev + 1) ++ entries).map Log.term := by
  unfold acceptEntries
  split
  · exact Or.inl rfl
  · rename_i j hj
    refine Or.inr ?_
    obtain ⟨-, -, hterms⟩ := conflictEntry_terms hj
    have hsplit : log.take (prev + j + 1) = log.take (prev + 1) ++ (log.drop (prev + 1)).take j := by
      rw [show prev + j + 1 = (prev + 1) + j by omega, List.take_add]
    rw [hsplit, List.map_append, List.map_append, List.map_append, List.append_assoc]
    congr 1
    simp only [Nat.add_zero, Nat.sub_zero] at hterms
    rw [hterms, ← List.map_append, List.take_append_drop]

end Raft

/-! ### Messages and servers -/

/-- The entries of a message follow `prevLogTerm` in order, are no fake entries and no later than the term
    of the message. -/
def AppendEntriesArgs.Shaped (args : AppendEntriesArgs n C) : Prop :=
  (∀ t ∈ args.entries.map Log.term, args.prevLogTerm ≤ t ∧ 0 < t ∧ t ≤ args.term) ∧
    (args.entries.map Log.term).Pairwise (· ≤ ·)

def Raft.LogShaped (rf : Raft n C) : Prop := DistributedLabs.Shaped rf.currentTerm (rf.log.map Log.term)

theorem Raft.LogShaped.length_pos {rf : Raft n C} (h : rf.LogShaped) : 0 < rf.log.length := by
  obtain ⟨rest, hrest, -⟩ := h
  have hlen := congrArg List.length hrest
  rw [List.length_map, List.length_cons] at hlen
  omega

theorem Raft.LogShaped.built {rf : Raft n C} (h : rf.LogShaped) {args : AppendEntriesArgs n C}
    (hb : rf.BuiltFrom args) : args.Shaped := by
  obtain ⟨prevLog, hprev, hterm⟩ := hb.prevLog
  have hp : (rf.log.map Log.term)[args.prevLogIndex]? = some args.prevLogTerm := by
    rw [List.getElem?_map, hprev, ← hterm]
    rfl
  have hdrop : args.entries.map Log.term = (rf.log.map Log.term).drop (args.prevLogIndex + 1) := by
    rw [hb.entries, List.map_drop]
  have hsorted := h.pairwise
  rw [← List.take_append_drop (args.prevLogIndex + 1) (rf.log.map Log.term)] at hsorted
  obtain ⟨-, hsorted, hcross⟩ := List.pairwise_append.mp hsorted
  have hmem : args.prevLogTerm ∈ (rf.log.map Log.term).take (args.prevLogIndex + 1) := by
    rw [List.take_add_one, hp]
    exact List.mem_append_right _ (List.mem_singleton_self _)
  obtain ⟨rest, hrest, hpos, -⟩ := h
  unfold AppendEntriesArgs.Shaped
  rw [hdrop, hb.term]
  refine ⟨fun t ht => ⟨hcross _ hmem t ht, ?_⟩, hsorted⟩
  rw [hrest, List.drop_succ_cons] at ht
  exact hpos t (List.mem_of_mem_drop ht)

theorem Raft.LogShaped.accept {rf : Raft n C} (h : rf.LogShaped) {args : AppendEntriesArgs n C}
    (ha : args.Shaped) (hle : args.term ≤ rf.currentTerm) {prevLog : Log C}
    (hprev : rf.log[args.prevLogIndex]? = some prevLog) (hterm : prevLog.term = args.prevLogTerm) :
    (rf.accept args).LogShaped := by
  unfold Raft.LogShaped
  rw [Raft.accept_currentTerm, Raft.accept_log]
  rcases Raft.acceptEntries_terms rf.log args.prevLogIndex args.entries with heq | heq
  · rw [heq]
    exact h
  · rw [heq, List.map_append, List.map_take]
    have hp : (rf.log.map Log.term)[args.prevLogIndex]? = some args.prevLogTerm := by
      rw [List.getElem?_map, hprev, ← hterm]
      rfl
    exact h.splice hp (fun t ht => ⟨(ha.1 t ht).1, (ha.1 t ht).2.1, Nat.le_trans (ha.1 t ht).2.2 hle⟩) ha.2

/-! ### The invariant -/

/-- Besides the shape of logs and messages: a handler between its sections has caught up with its message,
    in this incarnation, and a server that is not a follower has a positive term. -/
structure Cluster.LogsShaped (s : Cluster n C) : Prop where
  logs : ∀ i, (s.peers i).rf.LogShaped
  messages : ∀ c ∈ s.appendCalls, c.args.Shaped
  handling : ∀ c ∈ s.appendCalls, ∀ e, c.stage = .handling e → e ≤ (s.peers c.server).epoch ∧
    (e = (s.peers c.server).epoch → c.args.term ≤ (s.peers c.server).rf.currentTerm)
  elected : ∀ i, (s.peers i).polling ≠ [] ∨ 0 < (s.peers i).starting ∨ (s.peers i).rf.state ≠ .follower →
    0 < (s.peers i).rf.currentTerm

theorem Cluster.logsShaped_init : (Cluster.init n C).LogsShaped where
  logs _ := ⟨[], rfl, fun _ ht => (by cases ht), List.Pairwise.nil⟩
  messages _ hc := by cases hc
  handling _ hc := by cases hc
  elected _ h := by
    rcases h with h | h | h
    · exact absurd rfl h
    · cases h
    · exact absurd rfl h

section Step
variable {s s' : Cluster n C} {a : Action n C} {es : List (Event n C)}

theorem RfStep.logShaped {i : Fin n} {rf : Raft n C} (h : RfStep s a i rf) (hd : (s.peers i).rf.Durable)
    (hs : s.LogsShaped) : rf.LogShaped := by
  have hi := hs.logs i
  -- A section that keeps the log and does not lower the term.
  have kept : ∀ {rf : Raft n C}, rf.log = (s.peers i).rf.log → (s.peers i).rf.currentTerm ≤ rf.currentTerm →
      rf.LogShaped := by
    intro rf hl ht
    unfold Raft.LogShaped
    rw [hl]
    exact Shaped.mono hi ht
  have hle := h.term_le hd
  cases h.write with
  | stand => exact kept rfl hle
  | append command hl =>
    unfold Raft.LogShaped
    rw [Raft.appendCommand_log, Raft.appendCommand_currentTerm, List.map_append]
    exact Shaped.append_bound hi (hs.elected i (Or.inr (Or.inr (by rw [hl]; simp))))
  | catchUp => exact kept (Raft.catchUp_log _ _) hle
  | vote => exact kept (Raft.catchUp_log _ _) hle
  | stepDown => exact kept rfl hle
  | accept hc hserver hst hprev hterm =>
    subst hserver
    have hc := List.mem_of_getElem? hc
    exact hi.accept (hs.messages _ hc) ((hs.handling _ hc _ hst).2 rfl) hprev hterm
  | crash hmake =>
    obtain ⟨-, -, hl⟩ := hd.restored hmake
    exact kept hl hle
  | _ => exact hi

theorem PeerStep.elected {i : Fin n} {p : Peer n C} (h : PeerStep s i p) (hs : s.LogsShaped)
    (hle : (s.peers i).rf.currentTerm ≤ p.rf.currentTerm)
    (hp : p.polling ≠ [] ∨ 0 < p.starting ∨ p.rf.state ≠ .follower) : 0 < p.rf.currentTerm := by
  have old := fun h => Nat.lt_of_lt_of_le (hs.elected i h) hle
  cases h with
  | keep _ hpoll hstart hstate =>
    rw [hpoll, hstart] at hp
    refine old (hp.imp_right (Or.imp_right fun hf => ?_))
    rcases hstate with hfol | hsame
    · exact absurd hfol hf
    · rwa [hsame] at hf
  | stand h =>
    obtain ⟨_, -, rfl, -⟩ := Raft.candidate_inv h
    exact Nat.succ_pos _
  | win hk =>
    refine old (Or.inl fun h0 => ?_)
    rw [h0] at hk
    cases hk
  | follow =>
    refine old (hp.imp_left fun h1 h0 => h1 ?_)
    rw [Peer.follow_polling, h0]
    rfl
  | giveUp =>
    refine old (hp.imp_left fun h1 h0 => h1 ?_)
    rw [Peer.giveUp_polling, h0]
    rfl
  | lead hk => exact old (Or.inr (Or.inl hk))
  | boot h =>
    rcases hp with hp | hp | hp
    · exact absurd rfl hp
    · cases hp
    · exact absurd (Raft.make_me h).2 hp

theorem PeerStep.epoch_le {i : Fin n} {p : Peer n C} (h : PeerStep s i p) : (s.peers i).epoch ≤ p.epoch := by
  cases h with
  | keep h => exact Nat.le_of_eq h.symm
  | boot => exact Nat.le_succ _
  | _ => exact Nat.le_refl _

theorem Cluster.LogsShaped.step (h : s.LogsShaped) (hd : s.Durable)
    (hs : DistributedLabs.step s a = some (s', es)) : s'.LogsShaped where
  logs i := (step_rf hs i).logShaped (hd i) h
  messages c hc := by
    rcases (step_appendCalls hs hc).origin with ⟨d, hd, -, -, -, hargs⟩ | ⟨-, -, hb, -⟩
    · exact hargs ▸ h.messages d hd
    · exact (h.logs _).built hb
  handling c hc e hst := by
    have hep := (step_peer hs c.server).epoch_le
    have hterm := step_term_le hd hs c.server
    cases step_appendCalls hs hc with
    | old hold =>
      obtain ⟨hle, hcaught⟩ := h.handling c hold e hst
      exact ⟨Nat.le_trans hle hep, fun he => Nat.le_trans (hcaught (by omega)) hterm⟩
    | built _ _ hst' =>
      rw [hst'] at hst
      cases hst
    | refused => cases hst
    | begun _ _ hle hp =>
      cases hst
      refine ⟨hep, fun _ => ?_⟩
      dsimp only
      rw [hp, Peer.withRf_rf, Raft.catchUp_currentTerm hle]
    | answered => cases hst
    | returned => cases hst
  elected i := (step_peer hs i).elected h (step_term_le hd hs i)

end Step

theorem World.Reachable.logsShaped {P : Cluster n C → Action n C → Prop} {w : World n C}
    (hw : World.Reachable P w) : w.cluster.LogsShaped := by
  refine World.Reachable.keeps (I := fun w => w.cluster.LogsShaped) ?_ hw Cluster.logsShaped_init
  intro w w' a hw h _ hs
  obtain ⟨es, hs, -⟩ := World.step_inv hs
  exact h.step hw.durable hs

/-- In every state of every run, however its elections went: the log of a server is not empty, holds an
    entry of term 0 at index 0 and only there, its terms never decrease, and none is above the server's
    current term. -/
theorem log_shape {w : World n C} (hw : World.Reachable World.Any w) (i : Fin n) :
    (w.rf i).log ≠ [] ∧
    (∀ k e, (w.rf i).log[k]? = some e → (e.term = 0 ↔ k = 0)) ∧
    (w.rf i).log.Pairwise (fun a b => a.term ≤ b.term) ∧
    (∀ e ∈ (w.rf i).log, e.term ≤ (w.rf i).currentTerm) := by
  have h : Shaped (w.rf i).currentTerm ((w.rf i).log.map Log.term) := hw.logsShaped.logs i
  refine ⟨fun h0 => ?_, fun k e hk => ?_, List.pairwise_map.mp h.pairwise, fun e he => ?_⟩
  · obtain ⟨rest, hrest, -⟩ := h
    rw [h0] at hrest
    cases hrest
  · exact h.zero_iff (by rw [List.getElem?_map, hk]; rfl)
  · exact h.le_bound (List.mem_map_of_mem he)

theorem log_shape_restarted : ∃ w : World 3 Nat, (w.rf 1).log = [⟨0, none⟩, ⟨1, some 10⟩, ⟨2, some 20⟩] ∧
    (∀ k e, (w.rf 1).log[k]? = some e → (e.term = 0 ↔ k = 0)) ∧
    (w.rf 1).log.Pairwise (fun a b => a.term ≤ b.term) ∧ ∀ e ∈ (w.rf 1).log, e.term ≤ (w.rf 1).currentTerm := by
  obtain ⟨w, hw, hlog⟩ := World.exec_any World.Any (World.init 3 Nat) (restarted ++ [.crash 1])
    (fun w => (w.rf 1).log = [⟨0, none⟩, ⟨1, some 10⟩, ⟨2, some 20⟩]) (by decide)
  exact ⟨w, of_decide_eq_true hlog, (log_shape (World.exec_steps hw) 1).2⟩

end DistributedLabs
