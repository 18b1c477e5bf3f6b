import DistributedLabs.Lib.ReplicatedLog
import DistributedLabs.Raft.Calls
import DistributedLabs.Raft.Events
import DistributedLabs.Raft.Guards
import DistributedLabs.Raft.LogShape

/-! A cluster refines the replicated log with one owner per term. The first server that speaks in a term, by an
    accepted `Start` or by building `AppendEntries` messages, claims the term; the splice of `AppendEntries` takes
    over the part of the book that the message covers. -/

namespace DistributedLabs

open ReplicatedLog

variable {n : Nat} {C : Type}

/-! ### The splice of `AppendEntries` -/

namespace Raft

theorem conflictEntry_none {log : List (Log C)} {prev i : Nat} {entries : List (Log C)}
    (h : conflictEntry log prev i entries = none) {j : Nat} {e : Log C} (he : entries[j]? = some e) :
    (log[prev + i + j + 1]?).map Log.term = some e.term := by
  induction entries generalizing i j with
  | nil => simp at he
  | cons entry entries ih =>
    unfold conflictEntry at h
    split at h
    · rename_i hterm
      cases j with
      | zero =>
        cases he
        exact hterm
      | succ j =>
        have hj := ih h (by simpa using he)
        rwa [show prev + (i + 1) + j + 1 = prev + i + (j + 1) + 1 by omega] at hj
    · cases h

theorem conflictEntry_some {log : List (Log C)} {prev i j : Nat} {entries : List (Log C)}
    (h : conflictEntry log prev i entries = some j) :
    ∃ d, j = i + d ∧ (∃ e, entries[d]? = some e ∧ (log[prev + i + d + 1]?).map Log.term ≠ some e.term) ∧
      ∀ m < d, ∃ e, entries[m]? = some e ∧ (log[prev + i + m + 1]?).map Log.term = some e.term := by
  induction entries generalizing i with
  | nil => cases h
  | cons entry entries ih =>
    unfold conflictEntry at h
    split at h
    · rename_i hterm
      obtain ⟨d, rfl, ⟨e, he, hne⟩, hbefore⟩ := ih h
      refine ⟨d + 1, by omega, ⟨e, by simpa using he, ?_⟩, fun m hm => ?_⟩
      · rwa [show prev + i + (d + 1) + 1 = prev + (i + 1) + d + 1 by omega]
      · cases m with
        | zero => exact ⟨entry, rfl, hterm⟩
        | succ m =>
          obtain ⟨e', he', hm'⟩ := hbefore m (by omega)
          refine ⟨e', by simpa using he', ?_⟩
          rwa [show prev + i + (m + 1) + 1 = prev + (i + 1) + m + 1 by omega]
    · rename_i hterm
      cases h
      exact ⟨0, rfl, ⟨entry, rfl, hterm⟩, fun m hm => absurd hm (Nat.not_lt_zero m)⟩

/-- The splice of a message that carries the rest of `P` takes `P` over, if the log agrees with `P` in the term of
    the entry before: below a conflict, equal terms are equal entries. -/
theorem acceptEntries_adopts {log P : List (Log C)} (hmatch : Matching Log.term log P) {prev : Nat} {x y : Log C}
    (hx : log[prev]? = some x) (hy : P[prev]? = some y) (hxy : x.term = y.term) : Adopts P log (acceptEntries log prev (P.drop (prev + 1))) := by
  have agree : ∀ {k : Nat} {e : Log C}, P[k]? = some e → (log[k]?).map Log.term = some e.term →
      log.take (k + 1) = P.take (k + 1) := by
    intro k e he hk
    obtain ⟨e', he', hterm⟩ := Option.map_eq_some_iff.mp hk
    exact hmatch k e' e he' he hterm
  have hprev : (log[prev]?).map Log.term = some y.term := by
    rw [hx]
    exact congrArg some hxy
  have hlen : prev < P.length := (List.getElem?_eq_some_iff.mp hy).1
  unfold acceptEntries
  split
  · -- No conflict up to the last entry of `P`.
    rename_i hnone
    refine Or.inl ⟨?_, rfl⟩
    have hlast : ∃ e, P[P.length - 1]? = some e ∧ (log[P.length - 1]?).map Log.term = some e.term := by
      rcases Nat.lt_or_eq_of_le (show prev ≤ P.length - 1 by omega) with hlt | heq
      · obtain ⟨e, he⟩ : ∃ e, P[P.length - 1]? = some e := ⟨_, List.getElem?_eq_getElem (by omega)⟩
        have hdrop : (P.drop (prev + 1))[P.length - 1 - (prev + 1)]? = some e := by
          rw [List.getElem?_drop, show prev + 1 + (P.length - 1 - (prev + 1)) = P.length - 1 by omega]
          exact he
        have hterm := conflictEntry_none hnone hdrop
        rw [show prev + 0 + (P.length - 1 - (prev + 1)) + 1 = P.length - 1 by omega] at hterm
        exact ⟨e, he, hterm⟩
      · rw [← heq]
        exact ⟨y, hy, hprev⟩
    obtain ⟨e, he, hterm⟩ := hlast
    have htake := agree he hterm
    rw [List.take_of_length_le (l := P) (by omega)] at htake
    rw [← htake]
    exact List.take_prefix _ _
  · rename_i j hj
    obtain ⟨d, hd, ⟨e, he, hne⟩, hbefore⟩ := conflictEntry_some hj
    rw [Nat.zero_add] at hd
    subst hd
    rw [List.getElem?_drop] at he
    have hsame : log.take (prev + j + 1) = P.take (prev + j + 1) := by
      cases j with
      | zero => exact agree hy hprev
      | succ m =>
        obtain ⟨e', he', hm⟩ := hbefore m (Nat.lt_succ_self m)
        rw [List.getElem?_drop] at he'
        rw [show prev + (m + 1) + 1 = prev + 1 + m + 1 by omega]
        rw [show prev + 0 + m + 1 = prev + 1 + m by omega] at hm
        exact agree he' hm
    refine Or.inr ⟨fun hpre => ?_, ?_⟩
    · -- The entry of `P` at the conflict is not in the log.
      apply hne
      rw [show prev + 0 + j + 1 = prev + 1 + j by omega]
      obtain ⟨rest, rfl⟩ := hpre
      rw [List.getElem?_append_left (List.getElem?_eq_some_iff.mp he).1, he]
      rfl
    · rw [hsame, List.drop_drop, show prev + 1 + j = prev + j + 1 by omega]
      exact List.take_append_drop _ _

end Raft

/-! ### The relation -/

/-- The replicated log of a cluster: its entries are the log entries of the servers. -/
abbrev Replicas (n : Nat) (C : Type) := ReplicatedLog.State (Fin n) (Log C)

/-- The entry that every log starts with. -/
def Log.fake : Log C := ⟨0, none⟩

/-- The number of entries that a message covers, counted from the start of the log. -/
def AppendEntriesArgs.reach (args : AppendEntriesArgs n C) : Nat := args.prevLogIndex + args.entries.length + 1

/-- A message, with entries or without, covers the whole log it is built from. -/
theorem Raft.BuiltFrom.reach {rf : Raft n C} {args : AppendEntriesArgs n C} (h : rf.BuiltFrom args) :
    args.reach = rf.log.length := by
  obtain ⟨prevLog, hprev, -⟩ := h.prevLog
  have hlt := (List.getElem?_eq_some_iff.mp hprev).1
  unfold AppendEntriesArgs.reach
  rw [h.entries, List.length_drop]
  omega

/-- A message carries a part of the book of its term that reaches beyond what the book was started with. -/
structure Carries (m : Replicas n C) (args : AppendEntriesArgs n C) : Prop where
  owner : ∃ o, m.owner args.term = some o
  reach : args.reach ≤ (m.book args.term).length
  base : (m.base args.term).length ≤ args.reach
  prev : ∃ e, (m.book args.term)[args.prevLogIndex]? = some e ∧ e.term = args.prevLogTerm
  entries : args.entries = ((m.book args.term).take args.reach).drop (args.prevLogIndex + 1)

/-- A vote request describes the log its candidate stood with. -/
def Describes (args : RequestVoteArgs n) (log : List (Log C)) : Prop :=
  ∃ x, log.getLast? = some x ∧ args.lastLogTerm = x.term ∧ args.lastLogIndex = log.length - 1

/-- Servers have the terms and logs of the replicas, the events of the run are what is on record there, and the
    calls in flight speak of both. -/
structure Refines (w : World n C) (m : Replicas n C) : Prop where
  cur : ∀ i, m.cur i = (w.rf i).currentTerm
  log : ∀ i, m.log i = (w.rf i).log
  voted : ∀ {p t c v}, (p, t, c, v) ∈ m.voted ↔ .voted p t c v ∈ w.events
  stood : ∀ {c t l}, (c, t, l) ∈ m.stood ↔ .stood c t l ∈ w.events
  acked : ∀ {p t k}, (p, t, k) ∈ m.acked ↔ .accepted p t k ∈ w.events
  owner : ∀ {t i}, m.owner t = some i ↔ ∃ l, .spoke i t l ∈ w.events
  messages : ∀ c ∈ w.cluster.appendCalls, Carries m c.args
  requests : ∀ c ∈ w.cluster.voteCalls, ∃ l, (c.args.candidateID, c.args.term, l) ∈ m.stood ∧ Describes c.args l

theorem refines_init : Refines (World.init n C) (ReplicatedLog.State.init (Fin n) Log.fake) where
  cur _ := rfl
  log _ := rfl
  voted := ⟨fun h => h.elim, fun h => by cases h⟩
  stood := ⟨fun h => h.elim, fun h => by cases h⟩
  acked := ⟨fun h => h.elim, fun h => by cases h⟩
  owner := ⟨fun h => (by cases h), fun ⟨_, h⟩ => (by cases h)⟩
  messages c hc := by cases hc
  requests c hc := by cases hc

theorem Carries.mono {m m' : Replicas n C} {args : AppendEntriesArgs n C} (h : Carries m args)
    (hbook : ∀ t, m.book t <+: m'.book t)
    (howner : ∀ {t i}, m.owner t = some i → m'.owner t = some i ∧ m'.base t = m.base t) : Carries m' args := by
  obtain ⟨o, ho⟩ := h.owner
  obtain ⟨rest, hrest⟩ := hbook args.term
  obtain ⟨e, he, hterm⟩ := h.prev
  refine ⟨⟨o, (howner ho).1⟩, Nat.le_trans h.reach (hbook _).length_le, ?_, ⟨e, ?_, hterm⟩, ?_⟩
  · rw [(howner ho).2]
    exact h.base
  · rw [← hrest, List.getElem?_append_left (List.getElem?_eq_some_iff.mp he).1]
    exact he
  · rw [← hrest, List.take_append_of_le_length h.reach]
    exact h.entries

/-- A message of the owner of a term, built from its log, carries the whole book. -/
theorem Carries.built {m : Replicas n C} {i : Fin n} {rf : Raft n C} {args : AppendEntriesArgs n C}
    (hsound : Sound Log.term Log.fake m) (hown : m.owner (m.cur i) = some i) (hcur : m.cur i = rf.currentTerm)
    (hlog : m.log i = rf.log) (hb : rf.BuiltFrom args) : Carries m args := by
  have hterm : args.term = m.cur i := by rw [hb.term, hcur]
  have hbook : m.book args.term = rf.log := by rw [hterm, ← (hsound.reigns _ i hown).2 rfl, hlog]
  obtain ⟨prevLog, hprev, hprevTerm⟩ := hb.prevLog
  have hlen := hb.reach
  refine ⟨⟨i, hterm ▸ hown⟩, ?_, ?_, ⟨prevLog, ?_, hprevTerm⟩, ?_⟩
  · rw [hlen, hbook]
  · rw [hlen, ← hbook, hterm]
    exact (hsound.bases _ i hown).1.length_le
  · rw [hbook]
    exact hprev
  · rw [hlen, hbook, List.take_length]
    exact hb.entries

/-! ### Steps -/

/-- The events that are on record in the replicas. -/
def Event.Recorded : Event n C → Prop
  | .voted .. | .stood .. | .spoke .. | .accepted .. => True
  | _ => False

section Step
variable {w w' : World n C} {m : Replicas n C} {a : Action n C} {es : List (Event n C)}
  {G : Replicas n C → Fin n → Prop}

theorem World.mem_step (hs : w.step a = some w') (hstep : DistributedLabs.step w.cluster a = some (w'.cluster, es)) {e : Event n C}
    (hr : e.Recorded) : e ∈ w'.events ↔ e ∈ w.events ∨ e ∈ es := by
  obtain ⟨es', hstep', hw⟩ := World.step_inv hs
  rw [hstep] at hstep'
  cases hstep'
  rw [hw, List.mem_append, List.mem_append]
  refine or_congr_right (or_iff_right fun hacted => ?_)
  obtain ⟨i, -, rfl⟩ := List.mem_map.mp hacted
  exact hr

/-- The relation after a step, from what the step adds: the new records are its events, books only grow, and the
    messages and requests that it builds speak of the new state. -/
theorem Refines.extend {m' : Replicas n C} (h : Refines w m) (hs : w.step a = some w')
    (hstep : step w.cluster a = some (w'.cluster, es)) (hcur : ∀ j, m'.cur j = (w'.rf j).currentTerm)
    (hlog : ∀ j, m'.log j = (w'.rf j).log)
    (hvoted : ∀ {p t c v}, (p, t, c, v) ∈ m'.voted ↔ (p, t, c, v) ∈ m.voted ∨ .voted p t c v ∈ es)
    (hstood : ∀ {c t l}, (c, t, l) ∈ m'.stood ↔ (c, t, l) ∈ m.stood ∨ .stood c t l ∈ es)
    (hacked : ∀ {p t k}, (p, t, k) ∈ m'.acked ↔ (p, t, k) ∈ m.acked ∨ .accepted p t k ∈ es)
    (howner : ∀ {t i}, m'.owner t = some i ↔ m.owner t = some i ∨ ∃ l, .spoke i t l ∈ es)
    (hbook : ∀ t, m.book t <+: m'.book t) (hbase : ∀ {t i}, m.owner t = some i → m'.base t = m.base t)
    (hbuilt : ∀ {i args}, .spoke i (w.rf i).currentTerm (w.rf i).log ∈ es → (w.rf i).BuiltFrom args → Carries m' args)
    (hasked : ∀ {i rf args}, .stood i args.term rf.log ∈ es → (w.rf i).candidate = some (rf, args) →
      ∃ l, (args.candidateID, args.term, l) ∈ m'.stood ∧ Describes args l) : Refines w' m' := by
  have now : ∀ {e : Event n C}, e.Recorded → (e ∈ w'.events ↔ e ∈ w.events ∨ e ∈ es) := World.mem_step hs hstep
  refine ⟨hcur, hlog, ?_, ?_, ?_, ?_, fun c hc => ?_, fun c hc => ?_⟩
  · intro p t c v
    rw [hvoted, h.voted, now (e := .voted p t c v) trivial]
  · intro c t l
    rw [hstood, h.stood, now (e := .stood c t l) trivial]
  · intro p t k
    rw [hacked, h.acked, now (e := .accepted p t k) trivial]
  · intro t i
    rw [howner, h.owner, ← exists_or]
    exact exists_congr fun l => (now (e := .spoke i t l) trivial).symm
  · rcases (step_appendCalls hstep hc).origin with ⟨d, hd, -, -, -, hargs⟩ | ⟨-, -, hb, -, hspoke⟩
    · rw [← hargs]
      exact (h.messages d hd).mono hbook fun ho => ⟨howner.mpr (Or.inl ho), hbase ho⟩
    · exact hbuilt hspoke hb
  · rcases (step_voteCalls hstep hc).origin with ⟨d, hd, -, -, hargs, -⟩ | ⟨-, -, rf, hcand, -, hst⟩
    · rw [← hargs]
      obtain ⟨l, hl, hdesc⟩ := h.requests d hd
      exact ⟨l, hstood.mpr (Or.inl hl), hdesc⟩
    · exact hasked hst hcand

/-- A server moves up to a term that it has not passed. -/
theorem advance_steps (m : Replicas n C) {i : Fin n} {t : Nat} (ht : m.cur i ≤ t) :
    Relation.ReflTransGen (ReplicatedLog.Step Log.term G) m (m.advance i t) := by
  rcases Nat.lt_or_eq_of_le ht with hlt | rfl
  · exact .single (.advance hlt)
  · have heq : m.advance i (m.cur i) = m := by
      unfold ReplicatedLog.State.advance
      rw [Function.update_eq_self]
    rw [heq]

/-- The terms and logs after a step of server `i`. -/
theorem Refines.cur_of_step (h : Refines w m) (hstep : step w.cluster a = some (w'.cluster, es)) {i : Fin n}
    (hi : a.server w.cluster = some i) (j : Fin n) :
    (m.advance i (w'.rf i).currentTerm).cur j = (w'.rf j).currentTerm := by
  obtain ⟨i', hi', hother⟩ := step_other hstep
  rw [hi] at hi'
  cases hi'
  rw [ReplicatedLog.State.advance_cur, Function.update_apply]
  split
  · rename_i hj
    rw [hj]
  · rename_i hj
    rw [h.cur j]
    unfold World.rf
    rw [hother j hj]

theorem Refines.log_of_step (h : Refines w m) (hstep : step w.cluster a = some (w'.cluster, es)) {i : Fin n}
    (hi : a.server w.cluster = some i) (j : Fin n) :
    Function.update m.log i (w'.rf i).log j = (w'.rf j).log := by
  obtain ⟨i', hi', hother⟩ := step_other hstep
  rw [hi] at hi'
  cases hi'
  rw [Function.update_apply]
  split
  · rename_i hj
    rw [hj]
  · rename_i hj
    rw [h.log j]
    unfold World.rf
    rw [hother j hj]

theorem Refines.log_of_kept (h : Refines w m) (hstep : step w.cluster a = some (w'.cluster, es)) {i : Fin n}
    (hi : a.server w.cluster = some i) (hkept : (w'.rf i).log = (w.rf i).log) (j : Fin n) :
    m.log j = (w'.rf j).log := by
  rw [← h.log_of_step hstep hi j, hkept, ← h.log i, Function.update_eq_self]

/-- A step that puts nothing on record and writes no log: its server may move to a later term. -/
theorem Refines.quiet (h : Refines w m) (hd : w.cluster.Durable) (hs : w.step a = some w')
    (hstep : step w.cluster a = some (w'.cluster, es)) (hes : ∀ e ∈ es, ¬ e.Recorded)
    (hlog : ∀ i, (w'.rf i).log = (w.rf i).log) :
    ∃ m', Relation.ReflTransGen (ReplicatedLog.Step Log.term G) m m' ∧ Refines w' m' := by
  obtain ⟨i, hi, -⟩ := step_other hstep
  refine ⟨m.advance i (w'.rf i).currentTerm, advance_steps m (by rw [h.cur]; exact step_term_le hd hstep i), ?_⟩
  refine h.extend hs hstep (h.cur_of_step hstep hi) (h.log_of_kept hstep hi (hlog i)) ?_ ?_ ?_ ?_
    (fun _ => List.prefix_rfl) (fun _ => rfl) (fun he _ => absurd trivial (hes _ he))
    (fun he _ => absurd trivial (hes _ he))
  · exact fun {p t c v} => (or_iff_left fun he => hes (.voted p t c v) he trivial).symm
  · exact fun {c t l} => (or_iff_left fun he => hes (.stood c t l) he trivial).symm
  · exact fun {p t k} => (or_iff_left fun he => hes (.accepted p t k) he trivial).symm
  · exact fun {t j} => (or_iff_left fun ⟨_, he⟩ => hes _ he trivial).symm

/-- A candidate moves to the next term, stands and votes for itself. -/
theorem Refines.candidate (h : Refines w m) (hme : w.cluster.Named) {i : Fin n} {args : RequestVoteArgs n}
    (hs : w.step (.candidate i) = some w') (hstep : step w.cluster (.candidate i) = some (w'.cluster, es))
    (hcand : (w.rf i).candidate = some (w'.rf i, args))
    (hes : es = [.stood i args.term (w'.rf i).log, .voted i args.term i (w'.rf i).log]) :
    ∃ m', Relation.ReflTransGen (ReplicatedLog.Step Log.term G) m m' ∧ Refines w' m' := by
  obtain ⟨lastLog, hlast, hrf, hargs⟩ := Raft.candidate_inv hcand
  have hterm : (w'.rf i).currentTerm = args.term := by rw [hrf, hargs, Raft.stand_currentTerm]
  have hkept : (w'.rf i).log = (w.rf i).log := by rw [hrf, Raft.stand_log]
  have hT : (m.advance i args.term).cur i = args.term := by
    rw [ReplicatedLog.State.advance_cur, Function.update_self]
  have hlog : m.log i = (w'.rf i).log := by rw [hkept, h.log i]
  have hup : UpToDate Log.term (m.log i) (m.log i) := by
    rw [h.log i]
    exact ⟨lastLog, lastLog, hlast, hlast, Or.inr ⟨rfl, Nat.le_refl _⟩⟩
  have hle : m.cur i ≤ args.term := by
    rw [h.cur i, hargs]
    exact Nat.le_succ _
  have hstood : ∀ {c t l}, (c, t, l) ∈ (((m.advance i args.term).stand i).vote i i).stood ↔
      (c, t, l) ∈ m.stood ∨ .stood c t l ∈ es := by
    intro c t l
    change (c, t, l) ∈ insert (i, (m.advance i args.term).cur i, m.log i) m.stood ↔ _
    rw [Set.mem_insert_iff, hT, hlog, hes]
    simp [or_comm]
  refine ⟨((m.advance i args.term).stand i).vote i i,
    ((advance_steps m hle).tail .stand).tail (.vote (Or.inl rfl) hup), ?_⟩
  refine h.extend hs hstep (fun j => ?_) (h.log_of_kept hstep rfl hkept) ?_ hstood ?_ ?_ (fun _ => List.prefix_rfl)
    (fun _ => rfl) (fun he _ => ?_) (fun {j rf' args'} he hcand' => ?_)
  · rw [← h.cur_of_step hstep rfl j, hterm]
    rfl
  · intro p t c v
    change (p, t, c, v) ∈ insert (i, (m.advance i args.term).cur i, i, m.log i) m.voted ↔ _
    rw [Set.mem_insert_iff, hT, hlog, hes]
    simp [or_comm]
  · intro p t k
    rw [hes]
    simp
  · intro t j
    rw [hes]
    simp
  · rw [hes] at he
    simp at he
  · have hj : j = i := by
      rw [hes] at he
      simp at he
      exact he.1
    rw [hj, hcand] at hcand'
    cases hcand'
    have hid : args.candidateID = i := by
      rw [hargs]
      exact hme i
    refine ⟨m.log i, ?_, lastLog, ?_, ?_, ?_⟩
    · rw [hid, hstood, hes, hlog]
      simp
    · rw [h.log i]
      exact hlast
    · rw [hargs]
    · rw [h.log i, hargs]

/-- A voter moves to the term of the request and votes. -/
theorem Refines.grant (h : Refines w m) {k term : Nat} {c : VoteCall n} (hc : w.cluster.voteCalls[k]? = some c)
    (hv : (w.rf c.server).requestVote c.args = some (w'.rf c.server, ⟨term, true⟩))
    (hs : w.step (.requestVote k) = some w') (hstep : step w.cluster (.requestVote k) = some (w'.cluster, es))
    (hes : es = [.voted c.server term c.args.candidateID (w.rf c.server).log]) :
    ∃ m', Relation.ReflTransGen (ReplicatedLog.Step Log.term G) m m' ∧ Refines w' m' := by
  rcases Raft.requestVote_inv hv with ⟨-, -, hr⟩ | ⟨-, -, hr⟩ | ⟨hle, -, ⟨lastLog, hlast, hup⟩, hrf, hr⟩
  · cases hr
  · cases hr
  · have hi : (Action.requestVote k : Action n C).server w.cluster = some c.server :=
      congrArg (Option.map Call.server) hc
    cases hr
    have hterm : (w'.rf c.server).currentTerm = c.args.term := by
      rw [hrf, Raft.vote_currentTerm, Raft.catchUp_currentTerm hle]
    have hkept : (w'.rf c.server).log = (w.rf c.server).log := by rw [hrf, Raft.vote_log, Raft.catchUp_log]
    have hT : (m.advance c.server c.args.term).cur c.server = c.args.term := by
      rw [ReplicatedLog.State.advance_cur, Function.update_self]
    obtain ⟨l, hl, x, hx, hxt, hxi⟩ := h.requests c (List.mem_of_getElem? hc)
    have hlen : 0 < l.length := List.length_pos_iff.mpr (by rintro rfl; simp at hx)
    have hupto : UpToDate Log.term l (m.log c.server) := by
      rw [h.log]
      refine ⟨x, lastLog, hx, hlast, ?_⟩
      rw [← hxt]
      refine hup.imp_right fun hup => ⟨hup.1, ?_⟩
      have := hup.2
      omega
    refine ⟨(m.advance c.server c.args.term).vote c.server c.args.candidateID,
      (advance_steps m (by rw [h.cur]; exact hle)).tail (.vote (by rw [hT]; exact hl) hupto), ?_⟩
    refine h.extend hs hstep (fun j => ?_) (h.log_of_kept hstep hi hkept) ?_ ?_ ?_ ?_ (fun _ => List.prefix_rfl)
      (fun _ => rfl) (fun he _ => ?_) (fun he _ => ?_)
    · rw [← h.cur_of_step hstep hi j, hterm]
      rfl
    · intro p t q v
      change (p, t, q, v) ∈ insert (c.server, (m.advance c.server c.args.term).cur c.server, c.args.candidateID,
        m.log c.server) m.voted ↔ _
      rw [Set.mem_insert_iff, hT, h.log, hes]
      simp [or_comm]
    · intro q t l
      rw [hes]
      simp
    · intro p t j
      rw [hes]
      simp
    · intro t j
      rw [hes]
      simp
    · rw [hes] at he
      simp at he
    · rw [hes] at he
      simp at he

/-- The part of a book that a message covers. -/
def covered (m : Replicas n C) (args : AppendEntriesArgs n C) : List (Log C) := (m.book args.term).take args.reach

theorem Carries.covered_length {args : AppendEntriesArgs n C} (h : Carries m args) :
    (covered m args).length = args.reach := by
  unfold covered
  rw [List.length_take]
  exact Nat.min_eq_left h.reach

theorem Carries.base_covered {args : AppendEntriesArgs n C} (h : Carries m args) (hsound : Sound Log.term Log.fake m) :
    m.base args.term <+: covered m args := by
  obtain ⟨o, ho⟩ := h.owner
  refine List.prefix_of_prefix_length_le (hsound.bases _ o ho).1 (List.take_prefix _ _) ?_
  rw [h.covered_length]
  exact h.base

/-- A message that passes the consistency check makes the log take over what the message covers. -/
theorem Carries.adopts {args : AppendEntriesArgs n C} (h : Carries m args) (hsound : Sound Log.term Log.fake m)
    {p : Fin n} {prevLog : Log C} (hprev : (m.log p)[args.prevLogIndex]? = some prevLog)
    (hterm : prevLog.term = args.prevLogTerm) :
    Adopts (covered m args) (m.log p) (Raft.acceptEntries (m.log p) args.prevLogIndex args.entries) := by
  obtain ⟨e, he, heTerm⟩ := h.prev
  have hePrev : (covered m args)[args.prevLogIndex]? = some e := by
    unfold covered
    rw [List.getElem?_take_of_lt, he]
    unfold AppendEntriesArgs.reach
    omega
  have hground : Grounded Log.term m.book (covered m args) := (hsound.books _).of_le (List.take_prefix _ _)
  have hentries : args.entries = (covered m args).drop (args.prevLogIndex + 1) := h.entries
  rw [hentries]
  exact Raft.acceptEntries_adopts ((hsound.logs p).agree hground) hprev hePrev (hterm.trans heTerm.symm)

/-- A server takes over the part of the book of its term that a message covers. -/
theorem Refines.accept (h : Refines w m) (hsound : Sound Log.term Log.fake m) {k : Nat} {c : AppendCall n C}
    {reply : AppendEntriesReply} (hc : w.cluster.appendCalls[k]? = some c)
    (hl : (w.rf c.server).appendEntriesLog c.args = (w'.rf c.server, reply)) (hsucc : reply.success = true)
    (hterm : c.args.term = (w.rf c.server).currentTerm) (hs : w.step (.appendEntriesLog k) = some w')
    (hstep : step w.cluster (.appendEntriesLog k) = some (w'.cluster, es))
    (hes : es = [.accepted c.server reply.term (c.args.prevLogIndex + c.args.entries.length + 1)]) :
    ∃ m', Relation.ReflTransGen (ReplicatedLog.Step Log.term G) m m' ∧ Refines w' m' := by
  have hi : (Action.appendEntriesLog k : Action n C).server w.cluster = some c.server :=
    congrArg (Option.map Call.server) hc
  have hcarries := h.messages c (List.mem_of_getElem? hc)
  have hT : m.cur c.server = c.args.term := by rw [h.cur, hterm]
  obtain ⟨o, ho⟩ := hcarries.owner
  obtain ⟨hreply, hcases⟩ := Raft.appendEntriesLog_inv hl
  rcases hcases with ⟨hfail, -⟩ | ⟨-, ⟨prevLog, hlog, hlogTerm⟩, hcases⟩
  · rw [hsucc] at hfail
    cases hfail
  -- A heartbeat is the splice of no entries.
  have hnew : (w'.rf c.server).log = Raft.acceptEntries (w.rf c.server).log c.args.prevLogIndex c.args.entries ∧
      (w'.rf c.server).currentTerm = (w.rf c.server).currentTerm := by
    rcases hcases with ⟨hnil, heq⟩ | ⟨-, heq⟩
    · rw [heq, hnil]
      exact ⟨rfl, rfl⟩
    · rw [heq]
      exact ⟨Raft.accept_log _ _, Raft.accept_currentTerm _ _⟩
  have hadopts : Adopts (covered m c.args) (m.log c.server) (w'.rf c.server).log := by
    rw [hnew.1, ← h.log]
    exact hcarries.adopts hsound (by rw [h.log]; exact hlog) hlogTerm
  refine ⟨m.accept c.server (covered m c.args) (w'.rf c.server).log, .single (.accept (o := o) ?_ ?_ ?_ hadopts), ?_⟩
  · rw [hT]
    exact ho
  · rw [hT]
    exact hcarries.base_covered hsound
  · rw [hT]
    exact List.take_prefix _ _
  · refine h.extend hs hstep (fun j => ?_) (h.log_of_step hstep hi) ?_ ?_ ?_ ?_ (fun _ => List.prefix_rfl)
      (fun _ => rfl) (fun he _ => ?_) (fun he _ => ?_)
    · rw [← h.cur_of_step hstep hi j, hnew.2, ← h.cur, ReplicatedLog.State.advance_cur, Function.update_eq_self]
      rfl
    · intro p t q v
      rw [hes]
      simp
    · intro q t l
      rw [hes]
      simp
    · intro p t j
      change (p, t, j) ∈ insert (c.server, m.cur c.server, _) m.acked ↔ _
      rw [Set.mem_insert_iff, hcarries.covered_length, hes, h.cur, hreply]
      unfold AppendEntriesArgs.reach
      simp [or_comm]
    · intro t j
      rw [hes]
      simp
    · rw [hes] at he
      simp at he
    · rw [hes] at he
      simp at he

/-- What a state has after server `i` made sure that it owns its term. -/
structure Claimed (m : Replicas n C) (i : Fin n) (m' : Replicas n C) : Prop where
  sound : Sound Log.term Log.fake m'
  mine : m'.owner (m.cur i) = some i
  cur : m'.cur = m.cur
  log : m'.log = m.log
  voted : m'.voted = m.voted
  stood : m'.stood = m.stood
  acked : m'.acked = m.acked
  owner : ∀ {t j}, m'.owner t = some j ↔ m.owner t = some j ∨ (t = m.cur i ∧ j = i)
  book : ∀ t, m.book t <+: m'.book t
  base : ∀ {t j}, m.owner t = some j → m'.base t = m.base t

/-- The owner of its term has nothing to do; a server in a term without owner claims it. -/
theorem claimed_steps (hsound : Sound Log.term Log.fake m) {i : Fin n} (hpos : 0 < m.cur i)
    (hown : m.owner (m.cur i) = some i ∨ (m.owner (m.cur i) = none ∧ G m i)) :
    ∃ m', Relation.ReflTransGen (ReplicatedLog.Step Log.term G) m m' ∧ Claimed m i m' := by
  rcases hown with hown | ⟨hown, hG⟩
  · refine ⟨m, .refl, hsound, hown, rfl, rfl, rfl, rfl, rfl, fun {t j} => ?_, fun _ => List.prefix_rfl, fun _ => rfl⟩
    refine ⟨Or.inl, fun ho => ?_⟩
    rcases ho with ho | ⟨rfl, rfl⟩
    · exact ho
    · exact hown
  · have hnew : (m.claim i).owner (m.cur i) = some i := by rw [ReplicatedLog.State.claim_owner, Function.update_self]
    have hold : ∀ {t : Nat}, t ≠ m.cur i → (m.claim i).owner t = m.owner t ∧ (m.claim i).base t = m.base t := by
      intro t ht
      rw [ReplicatedLog.State.claim_owner, ReplicatedLog.State.claim_base, Function.update_of_ne ht,
        Function.update_of_ne ht]
      exact ⟨rfl, rfl⟩
    have hne : ∀ {t : Nat} {j : Fin n}, m.owner t = some j → t ≠ m.cur i := by
      rintro t j ho rfl
      rw [hown] at ho
      cases ho
    refine ⟨m.claim i, .single (.claim hpos hown hG), hsound.claim hpos hown, hnew, rfl, rfl, rfl, rfl, rfl,
      fun {t j} => ?_, hsound.claim_book hpos hown, fun ho => (hold (hne ho)).2⟩
    by_cases ht : t = m.cur i
    · rw [ht, hnew, hown]
      simp [eq_comm]
    · rw [(hold ht).1]
      simp [ht]

/-- A server that builds messages speaks for its term. -/
theorem Refines.replicate (h : Refines w m) (hsound : Sound Log.term Log.fake m) {i : Fin n}
    (hpos : 0 < m.cur i) (hown : m.owner (m.cur i) = some i ∨ (m.owner (m.cur i) = none ∧ G m i))
    (hs : w.step a = some w') (hstep : step w.cluster a = some (w'.cluster, es))
    (hterm : ∀ j, (w'.rf j).currentTerm = (w.rf j).currentTerm) (hlog : ∀ j, (w'.rf j).log = (w.rf j).log)
    (hspoke : ∃ l, .spoke i (w.rf i).currentTerm l ∈ es)
    (hes : ∀ e ∈ es, e.Recorded → ∃ l, e = .spoke i (w.rf i).currentTerm l) :
    ∃ m', Relation.ReflTransGen (ReplicatedLog.Step Log.term G) m m' ∧ Refines w' m' := by
  obtain ⟨m', hsteps, hm⟩ := claimed_steps hsound hpos hown
  have none_else : ∀ {e : Event n C}, e.Recorded → (∀ l, e ≠ .spoke i (w.rf i).currentTerm l) → e ∉ es := by
    intro e hr hne he
    obtain ⟨l, rfl⟩ := hes e he hr
    exact hne l rfl
  refine ⟨m', hsteps, h.extend hs hstep (fun j => ?_) (fun j => ?_) ?_ ?_ ?_ ?_ hm.book hm.base
    (fun {j args} he hb => ?_) (fun he _ => ?_)⟩
  · rw [hm.cur, h.cur, hterm]
  · rw [hm.log, h.log, hlog]
  · intro p t c v
    rw [hm.voted]
    exact (or_iff_left (none_else (e := .voted p t c v) trivial fun l => (by simp))).symm
  · intro c t l
    rw [hm.stood]
    exact (or_iff_left (none_else (e := .stood c t l) trivial fun l => (by simp))).symm
  · intro p t k
    rw [hm.acked]
    exact (or_iff_left (none_else (e := .accepted p t k) trivial fun l => (by simp))).symm
  · intro t j
    rw [hm.owner, h.cur]
    refine or_congr_right ⟨?_, ?_⟩
    · rintro ⟨rfl, rfl⟩
      exact hspoke
    · rintro ⟨l, he⟩
      obtain ⟨l', heq⟩ := hes _ he trivial
      cases heq
      exact ⟨rfl, rfl⟩
  · obtain ⟨l', heq⟩ := hes _ he trivial
    cases heq
    refine Carries.built (i := i) hm.sound ?_ ?_ ?_ hb
    · rw [hm.cur]
      exact hm.mine
    · rw [hm.cur, h.cur]
    · rw [hm.log, h.log]
  · obtain ⟨l', heq⟩ := hes _ he trivial
    cases heq

/-- An accepted `Start` appends to the book of the term. -/
theorem Refines.start (h : Refines w m) (hsound : Sound Log.term Log.fake m) {i : Fin n} {command : Option C}
    (hpos : 0 < m.cur i) (hown : m.owner (m.cur i) = some i ∨ (m.owner (m.cur i) = none ∧ G m i))
    (hs : w.step (.start i command) = some w') (hstep : step w.cluster (.start i command) = some (w'.cluster, es))
    (hrf : w'.rf i = (w.rf i).appendCommand command)
    (hes : es = [.spoke i (w.rf i).currentTerm (w'.rf i).log]) :
    ∃ m', Relation.ReflTransGen (ReplicatedLog.Step Log.term G) m m' ∧ Refines w' m' := by
  obtain ⟨m₁, hsteps, hm⟩ := claimed_steps hsound hpos hown
  have hmine : m₁.owner (m₁.cur i) = some i := by
    rw [hm.cur]
    exact hm.mine
  have hentry : Log.term (⟨(w.rf i).currentTerm, command⟩ : Log C) = m₁.cur i := by rw [hm.cur, h.cur]
  have hnew : (w'.rf i).log = m₁.log i ++ [⟨(w.rf i).currentTerm, command⟩] := by
    rw [hrf, Raft.appendCommand_log, hm.log, h.log]
  have hcur : (w'.rf i).currentTerm = (w.rf i).currentTerm := by rw [hrf, Raft.appendCommand_currentTerm]
  refine ⟨m₁.append i ⟨(w.rf i).currentTerm, command⟩, hsteps.tail (.append hmine hentry), ?_⟩
  refine h.extend hs hstep (fun j => ?_) (fun j => ?_) ?_ ?_ ?_ ?_ (fun t => ?_) hm.base (fun {j args} he hb => ?_)
    (fun he _ => ?_)
  · rw [← h.cur_of_step hstep rfl j, hcur, ← h.cur, ReplicatedLog.State.advance_cur, Function.update_eq_self, ← hm.cur]
    rfl
  · rw [← h.log_of_step hstep rfl j, hnew, ← hm.log]
    rfl
  · intro p t c v
    rw [hes]
    simp [hm.voted]
  · intro c t l
    rw [hes]
    simp [hm.stood]
  · intro p t k
    rw [hes]
    simp [hm.acked]
  · intro t j
    change m₁.owner t = some j ↔ _
    rw [hm.owner, h.cur, hes]
    refine or_congr_right ⟨?_, ?_⟩
    · rintro ⟨rfl, rfl⟩
      exact ⟨_, List.mem_singleton_self _⟩
    · rintro ⟨l, he⟩
      cases List.mem_singleton.mp he
      exact ⟨rfl, rfl⟩
  · exact (hm.book t).trans (hm.sound.append_book hmine _ t)
  · -- `Start` builds no message: the log in the event is longer than the one before the step.
    rw [hes] at he
    injection List.mem_singleton.mp he with hj _ hlog
    rw [hj, hnew, hm.log, h.log] at hlog
    simp at hlog
  · rw [hes] at he
    simp at he

/-- A round of a leader loop and a heartbeat write neither terms nor logs. -/
theorem loop_kept (hstep : step w.cluster a = some (w'.cluster, es)) {i : Fin n}
    (ha : a = .leaderLoop i ∨ a = .startHeartBeat i) (j : Fin n) :
    (w'.rf j).currentTerm = (w.rf j).currentTerm ∧ (w'.rf j).log = (w.rf j).log := by
  have hrf := step_rf hstep j
  unfold World.rf
  generalize (w'.cluster.peers j).rf = rf at hrf ⊢
  rcases ha with rfl | rfl <;> cases hrf with
  | same => exact ⟨rfl, rfl⟩
  | commit => exact ⟨rfl, rfl⟩
  | apply => exact ⟨rfl, rfl⟩
  | leader h => cases h
  | candidate _ h => cases h
  | start _ h => cases h
  | requestVote _ _ _ h => cases h
  | sendRequestVote _ _ _ h => cases h
  | appendEntriesTerm _ _ _ h => cases h
  | appendEntriesLog _ _ _ _ h => cases h
  | sendAppendEntries _ _ _ h => cases h
  | crash _ h => cases h

/-- A round of a leader loop makes only speeches known to the replicas, and none as a follower. -/
theorem loop_spoken {i : Fin n} (hstep : step w.cluster (.leaderLoop i) = some (w'.cluster, es)) {e : Event n C}
    (he : e ∈ es) (hr : e.Recorded) : (w.rf i).state ≠ .follower ∧ ∃ l, e = .spoke i (w.rf i).currentTerm l := by
  obtain ⟨-, -, ⟨-, -, rfl⟩ | ⟨hf, calls, -, -, rfl⟩ | ⟨hf, calls, -, -, rfl⟩⟩ := Step.leaderLoop_inv hstep
  · cases he
  · rcases List.mem_append.mp he with he | he
    · exact ⟨hf, _, (of_mem_spokeEvents he).2⟩
    · obtain ⟨-, rfl⟩ := of_mem_committedEvents he
      exact absurd hr id
  · exact ⟨hf, _, (of_mem_spokeEvents he).2⟩

/-- The second section of an `AppendEntries` accepts a part of the book, or writes nothing. -/
theorem Refines.handle (h : Refines w m) (hsound : Sound Log.term Log.fake m) (hd : w.cluster.Durable) {k : Nat}
    (haccept : Guard.AcceptInTerm w.cluster (.appendEntriesLog k)) (hs : w.step (.appendEntriesLog k) = some w')
    (hstep : DistributedLabs.step w.cluster (.appendEntriesLog k) = some (w'.cluster, es)) :
    ∃ m', Relation.ReflTransGen (ReplicatedLog.Step Log.term G) m m' ∧ Refines w' m' := by
  obtain ⟨c, rf, reply, hc, -, -, hl, hw, hes⟩ := Step.appendEntriesLog_inv hstep
  have hrf : w'.rf c.server = rf := by
    unfold World.rf
    rw [hw, Cluster.setAppendStage_peers, Cluster.setPeer_self, Peer.withRf_rf]
  subst hrf
  by_cases hsucc : reply.success = true ∧ reply.term = c.args.term
  · rw [if_pos hsucc] at hes
    have hterm : c.args.term = (w.rf c.server).currentTerm := hsucc.2.symm.trans (Raft.appendEntriesLog_inv hl).1
    exact h.accept hsound hc hl hsucc.1 hterm hs hstep hes
  · rw [if_neg hsucc] at hes
    subst hes
    refine h.quiet hd hs hstep (fun e he => by cases he) fun j => ?_
    obtain ⟨i, hi, hother⟩ := step_other hstep
    have hi' : i = c.server := by
      have heq : (Action.appendEntriesLog k : Action n C).server w.cluster = some c.server :=
        congrArg (Option.map Call.server) hc
      exact Option.some.inj (hi.symm.trans heq)
    by_cases hj : j = c.server
    · obtain ⟨hreply, ⟨-, heq⟩ | ⟨hyes, ⟨_, hprev, hprevTerm⟩, ⟨-, heq⟩ | ⟨hne, -⟩⟩⟩ := Raft.appendEntriesLog_inv hl
      · rw [hj, heq]
        rfl
      · rw [hj, heq]
        rfl
      · have hterm := haccept c hc hne (Raft.consistent_of_prevLog hprev hprevTerm)
        exact absurd ⟨hyes, hreply.trans hterm.symm⟩ hsucc
    · unfold World.rf
      rw [hother j (hi' ▸ hj)]

/-- Every step of a cluster is a sequence of steps of the replicas, if whoever speaks for a term may claim it and
    the term has not risen between the sections of an `AppendEntries` whose entries are taken over. -/
theorem Refines.step (h : Refines w m) (hsound : Sound Log.term Log.fake m) (hd : w.cluster.Durable)
    (hme : w.cluster.Named) (hshape : w.cluster.LogsShaped)
    (hspeak : ∀ {i t l}, .spoke i t l ∈ w'.events → EventStep w.cluster a w'.cluster (.spoke i t l) →
      m.owner t = some i ∨ (m.owner t = none ∧ G m i))
    (haccept : Guard.AcceptInTerm w.cluster a) (hs : w.step a = some w') :
    ∃ m', Relation.ReflTransGen (ReplicatedLog.Step Log.term G) m m' ∧ Refines w' m' := by
  obtain ⟨es, hstep, -⟩ := World.step_inv hs
  have speaker : ∀ {i : Fin n} {l : List (Log C)}, .spoke i (w.rf i).currentTerm l ∈ es →
      m.owner (m.cur i) = some i ∨ (m.owner (m.cur i) = none ∧ G m i) := by
    intro i l he
    rw [h.cur]
    have hnow := World.mem_step (e := .spoke i (w.rf i).currentTerm l) hs hstep trivial
    exact hspeak (hnow.mpr (Or.inr he)) (step_event hstep he)
  have positive : ∀ {i : Fin n}, (w.rf i).state ≠ .follower → 0 < m.cur i := by
    intro i hf
    rw [h.cur]
    exact hshape.elected i (Or.inr (Or.inr hf))
  -- A step whose section writes no log.
  have silent : (∀ i command, a = .start i command → (w.rf i).state ≠ .leader) → (∀ k, a ≠ .appendEntriesLog k) →
      (∀ e ∈ es, ¬ e.Recorded) → ∃ m', Relation.ReflTransGen (ReplicatedLog.Step Log.term G) m m' ∧ Refines w' m' := by
    intro hstart hno hes
    exact h.quiet hd hs hstep hes fun i => (step_rf hstep i).log_kept (hd i) (hstart i) hno
  have noEvent : ∀ e ∈ ([] : List (Event n C)), ¬ e.Recorded := fun e he => by cases he
  cases a with
  | startElectionTimer i =>
    obtain ⟨-, -, -, rfl⟩ := Step.startElectionTimer_inv hstep
    exact silent (fun _ _ h => by cases h) (fun _ h => by cases h) noEvent
  | candidate i =>
    obtain ⟨-, -, ⟨-, -, rfl⟩ | ⟨rf, args, hcand, hw, hes⟩⟩ := Step.candidate_inv hstep
    · exact silent (fun _ _ h => by cases h) (fun _ h => by cases h) noEvent
    · have hrf : w'.rf i = rf := by
        unfold World.rf
        rw [hw, Cluster.callVotes_peers, Cluster.setPeer_self, Peer.stand_rf]
      subst hrf
      exact h.candidate hme hs hstep hcand hes
  | poll i k =>
    obtain ⟨_, -, -, rfl, -⟩ := Step.poll_inv hstep
    exact silent (fun _ _ h => by cases h) (fun _ h => by cases h) noEvent
  | leader i =>
    obtain ⟨-, -, -, rfl⟩ := Step.leader_inv hstep
    exact silent (fun _ _ h => by cases h) (fun _ h => by cases h) noEvent
  | leaderLoop i =>
    by_cases hsp : ∃ l, .spoke i (w.rf i).currentTerm l ∈ es
    · obtain ⟨l, hl⟩ := hsp
      exact h.replicate hsound (positive (loop_spoken hstep hl trivial).1) (speaker hl) hs hstep
        (fun j => (loop_kept hstep (Or.inl rfl) j).1) (fun j => (loop_kept hstep (Or.inl rfl) j).2) ⟨l, hl⟩
        fun e he hr => (loop_spoken hstep he hr).2
    · refine silent (fun _ _ h => by cases h) (fun _ h => by cases h) fun e he hr => ?_
      obtain ⟨l, rfl⟩ := (loop_spoken hstep he hr).2
      exact hsp ⟨l, he⟩
  | startHeartBeat i =>
    obtain ⟨-, -, ⟨-, -, rfl⟩ | ⟨-, -, -, rfl⟩ | ⟨hl, _, -, -, hes⟩⟩ := Step.startHeartBeat_inv hstep
    · exact silent (fun _ _ h => by cases h) (fun _ h => by cases h) noEvent
    · exact silent (fun _ _ h => by cases h) (fun _ h => by cases h) noEvent
    · have hspoke : .spoke i (w.rf i).currentTerm (w.rf i).log ∈ es := by
        rw [hes]
        exact List.mem_singleton_self _
      have hf : (w.rf i).state ≠ .follower := by
        unfold World.rf
        rw [hl]
        simp
      refine h.replicate hsound (positive hf) (speaker hspoke) hs hstep
        (fun j => (loop_kept hstep (Or.inr rfl) j).1) (fun j => (loop_kept hstep (Or.inr rfl) j).2) ⟨_, hspoke⟩
        fun e he _ => ?_
      rw [hes] at he
      exact ⟨_, List.mem_singleton.mp he⟩
  | start i command =>
    obtain ⟨-, hw, hes⟩ := Step.start_inv hstep
    by_cases hl : (w.rf i).state = .leader
    · have hrf : w'.rf i = (w.rf i).appendCommand command := by
        unfold World.rf at hl ⊢
        rw [hw, Cluster.setPeer_self, Raft.start_of_leader hl, Peer.withRf_rf]
      have hes : es = [.spoke i (w.rf i).currentTerm (w'.rf i).log] := by
        unfold World.rf at hl hrf ⊢
        rw [hrf, hes, Raft.start_of_leader hl]
        rfl
      have hspoke : .spoke i (w.rf i).currentTerm (w'.rf i).log ∈ es := by
        rw [hes]
        exact List.mem_singleton_self _
      have hf : (w.rf i).state ≠ .follower := by
        rw [hl]
        simp
      exact h.start hsound (positive hf) (speaker hspoke) hs hstep hrf hes
    · have hes : es = [] := by
        unfold World.rf at hl
        rw [hes, Raft.start_of_not_leader hl]
        rfl
      subst hes
      exact silent (fun _ _ h => by cases h; exact hl) (fun _ h => by cases h) noEvent
  | requestVote k =>
    obtain ⟨c, hc, -, -, ⟨-, -, rfl⟩ | ⟨rf, ⟨term, granted⟩, hv, hw, hes⟩⟩ := Step.requestVote_inv hstep
    · exact silent (fun _ _ h => by cases h) (fun _ h => by cases h) noEvent
    · cases granted with
      | false =>
        subst hes
        exact silent (fun _ _ h => by cases h) (fun _ h => by cases h) noEvent
      | true =>
        have hrf : w'.rf c.server = rf := by
          unfold World.rf
          rw [hw, Cluster.setVoteStage_peers, Cluster.setPeer_self, Peer.withRf_rf]
        subst hrf
        exact h.grant hc hv hs hstep hes
  | sendRequestVote k =>
    obtain ⟨_, _, -, -, -, -, rfl, -⟩ := Step.sendRequestVote_inv hstep
    exact silent (fun _ _ h => by cases h) (fun _ h => by cases h) noEvent
  | appendEntriesTerm k =>
    obtain ⟨_, _, -, -, -, rfl, -⟩ := Step.appendEntriesTerm_inv hstep
    exact silent (fun _ _ h => by cases h) (fun _ h => by cases h) noEvent
  | appendEntriesLog k => exact h.handle hsound hd haccept hs hstep
  | sendAppendEntries k =>
    obtain ⟨_, _, -, -, -, -, rfl, -⟩ := Step.sendAppendEntries_inv hstep
    exact silent (fun _ _ h => by cases h) (fun _ h => by cases h) noEvent
  | applier i =>
    obtain ⟨-, -, _, msgs, rfl, -⟩ := Step.applier_inv hstep
    refine silent (fun _ _ h => by cases h) (fun _ h => by cases h) fun e he => ?_
    obtain ⟨msg, -, rfl⟩ := List.mem_map.mp he
    exact id
  | crash i =>
    obtain ⟨_, -, -, rfl⟩ := Step.crash_inv hstep
    exact silent (fun _ _ h => by cases h) (fun _ h => by cases h) noEvent

end Step

end DistributedLabs
