import DistributedLabs.Raft.Refinement

/-! The fast backup of `nextIndex`. A refusal tells the leader where to go on: at the reported length of a log that is
    too short, just after its own last entry of the conflicting term, or at the first index of that term in the
    peer's log. -/

namespace DistributedLabs

open ReplicatedLog

variable {n : Nat} {C : Type}

/-! ### Exchanges -/

namespace Raft

/-- One round: the leader builds a message for a peer from its `nextIndex`, the peer answers, and the leader takes up
    the reply. `none` is the panic of the leader loop. -/
def exchange (leader follower : Raft n C) (server : Fin n) : Option (Raft n C × Raft n C × AppendEntriesReply) :=
  match leader.replicationArgs (leader.nextIndex server) with
  | none => none
  | some args =>
    match follower.appendEntries args with
    | (follower, reply) => some (leader.sendAppendEntries server args reply, follower, reply)

/-- Rounds until one succeeds, `fuel` at most. -/
def backup (server : Fin n) : Nat → Raft n C → Raft n C → Option (Raft n C × Raft n C)
  | 0, _, _ => none
  | fuel + 1, leader, follower =>
    match leader.exchange follower server with
    | none => none
    | some (leader, follower, reply) =>
      if reply.success then some (leader, follower) else backup server fuel leader follower

/-- Rounds that were all refused, from one pair of leader and follower to another. -/
def Refused (server : Fin n) : Raft n C × Raft n C → Raft n C × Raft n C → Prop :=
  Relation.ReflTransGen fun x y =>
    ∃ reply, x.1.exchange x.2 server = some (y.1, y.2, reply) ∧ reply.success = false

end Raft

/-- A log that starts with the fake entry, its only entry of term 0. -/
structure Sentinel (log : List (Log C)) : Prop where
  head : log[0]? = some Log.fake
  zero : ∀ k e, log[k]? = some e → e.term = 0 → k = 0

/-- Entries of the same term above 0, at any two indices, stand after the same entries up to the smaller index. -/
def Related (l l' : List (Log C)) : Prop :=
  ∀ (i j : Nat) (e e' : Log C), l[i]? = some e → l'[j]? = some e' → e.term = e'.term → e.term ≠ 0 →
    ∀ k ≤ min i j, l[k]? = l'[k]?

theorem Related.matching {l l' : List (Log C)} (h : Related l l') (hl : Sentinel l) (hl' : Sentinel l') :
    Matching Log.term l' l := by
  intro k e' e he' he hterm
  have hsame : ∀ j ≤ k, l'[j]? = l[j]? := by
    intro j hj
    by_cases h0 : e.term = 0
    · obtain rfl : j = 0 := Nat.le_zero.mp (hl.zero k e he h0 ▸ hj)
      rw [hl.head, hl'.head]
    · exact (h k k e e' he he' hterm.symm h0 j (by omega)).symm
  refine List.ext_getElem? fun j => ?_
  rw [List.getElem?_take, List.getElem?_take]
  split
  · exact hsame j (by omega)
  · rfl

/-- A leader that backs up for a peer which is not ahead in its term, both with their logs. -/
structure Backing (server : Fin n) (leader follower : Raft n C) : Prop where
  leaderLog : Sentinel leader.log
  followerLog : Sentinel follower.log
  real : 2 ≤ follower.log.length
  related : Related leader.log follower.log
  term : follower.currentTerm ≤ leader.currentTerm
  pos : 1 ≤ leader.nextIndex server
  lt : leader.nextIndex server < leader.log.length

namespace Backing

variable {server : Fin n} {leader follower : Raft n C}

/-- The message of the next round. -/
theorem args (h : Backing server leader follower) : ∃ prev y, leader.nextIndex server = prev + 1 ∧
    leader.log[prev]? = some y ∧ leader.replicationArgs (leader.nextIndex server) =
      some ⟨leader.currentTerm, leader.me, prev, y.term, leader.log.drop (prev + 1), leader.commitIndex⟩ := by
  obtain ⟨prev, hprev⟩ : ∃ prev, leader.nextIndex server = prev + 1 := ⟨leader.nextIndex server - 1, by have := h.pos; omega⟩
  have hlt := h.lt
  rw [hprev] at hlt
  have hy : leader.log[prev]? = some leader.log[prev] := List.getElem?_eq_getElem (by omega)
  refine ⟨prev, _, hprev, hy, ?_⟩
  rw [hprev]
  unfold Raft.replicationArgs
  dsimp only
  rw [hy]

/-- A refusal of the message before index `prev + 1` takes `nextIndex` to `prev` or below, and not below 1. -/
theorem rollback (h : Backing server leader follower) {prev : Nat} {y : Log C} (hy : leader.log[prev]? = some y)
    {rf rf' : Raft n C} (hlog : rf.log = follower.log) {args : AppendEntriesArgs n C} (hprev : args.prevLogIndex = prev)
    (hterm : args.prevLogTerm = y.term) {reply : AppendEntriesReply} (hl : rf.appendEntriesLog args = (rf', reply))
    (hr : reply.success = false) :
    1 ≤ leader.rollback reply ∧ leader.rollback reply ≤ prev ∧
      (reply.conflictIndex = 0 ↔ follower.log.length ≤ prev) := by
  have hreal := h.real
  rcases Raft.appendEntriesLog_refused hl hr with ⟨hshort, h0, hlen⟩ | ⟨x, hx, hne, hct, hci⟩
  · rw [hlog, hprev] at hshort
    rw [hlog] at hlen
    rcases leader.rollback_cases reply with ⟨-, hback⟩ | ⟨hci, -⟩ | ⟨hci, -⟩
    · rw [hback, hlen]
      exact ⟨by omega, by omega, fun _ => hshort, fun _ => h0⟩
    · exact absurd h0 hci
    · exact absurd h0 hci
  · rw [hlog, hprev] at hx hci
    rw [hterm] at hne
    have hpos : 0 < prev := by
      refine Nat.pos_of_ne_zero fun h0 => hne ?_
      rw [h0, h.followerLog.head] at hx
      rw [h0, h.leaderLog.head] at hy
      rw [← Option.some.inj hx, ← Option.some.inj hy]
    have hxterm : x.term ≠ 0 := fun h0 => absurd (h.followerLog.zero prev x hx h0) (by omega)
    have hstart : (follower.log[0]?).map Log.term ≠ some x.term := by
      rw [h.followerLog.head]
      exact fun h0 => hxterm (Option.some.inj h0).symm
    obtain ⟨hcpos, hcle⟩ := Raft.conflictIndex_bounds hstart hpos
    have hlong : ¬ follower.log.length ≤ prev := Nat.not_le.mpr (List.getElem?_eq_some_iff.mp hx).1
    have hiff : reply.conflictIndex = 0 ↔ follower.log.length ≤ prev :=
      ⟨fun h0 => by omega, fun hle => absurd hle hlong⟩
    rcases leader.rollback_cases reply with ⟨h0, -⟩ | ⟨-, i, hipos, hi, hback⟩ | ⟨-, hback⟩
    · omega
    · -- An entry of the conflicting term at or after `prev` would make the logs agree at `prev`.
      obtain ⟨e, he, heterm⟩ := Option.map_eq_some_iff.mp hi
      rw [hct] at heterm
      have hbefore : i < prev := by
        by_contra hge
        have hagree := h.related i prev e x he hx heterm (by rw [heterm]; exact hxterm) prev (by omega)
        rw [hy, hx] at hagree
        exact hne (congrArg Log.term (Option.some.inj hagree).symm)
      rw [hback]
      exact ⟨by omega, by omega, hiff⟩
    · rw [hback]
      exact ⟨hci ▸ hcpos, hci ▸ hcle, hiff⟩

/-- A round succeeds and gives the peer the whole log of the leader, or it leaves both logs alone and lowers
    `nextIndex`. -/
theorem exchange (h : Backing server leader follower) :
    ∃ leader' follower' reply, leader.exchange follower server = some (leader', follower', reply) ∧
      ((reply.success = true ∧ leader.log <+: follower'.log) ∨
       (reply.success = false ∧ Backing server leader' follower' ∧ leader'.log = leader.log ∧
        leader'.nextIndex server < leader.nextIndex server ∧
        (reply.conflictIndex = 0 ↔ follower.log.length < leader.nextIndex server))) := by
  obtain ⟨prev, y, hnext, hy, hargs⟩ := h.args
  generalize hmsg : (⟨leader.currentTerm, leader.me, prev, y.term, leader.log.drop (prev + 1), leader.commitIndex⟩ :
    AppendEntriesArgs n C) = args at hargs
  have hterm : args.term = leader.currentTerm := by rw [← hmsg]
  have hprev : args.prevLogIndex = prev := by rw [← hmsg]
  have hprevTerm : args.prevLogTerm = y.term := by rw [← hmsg]
  have hentries : args.entries = leader.log.drop (prev + 1) := by rw [← hmsg]
  obtain ⟨follower', reply, hanswer⟩ : ∃ follower' reply, follower.appendEntries args = (follower', reply) := ⟨_, _, rfl⟩
  refine ⟨leader.sendAppendEntries server args reply, follower', reply, ?_, ?_⟩
  · unfold Raft.exchange
    rw [hargs]
    dsimp only
    rw [hanswer]
  have hle : follower.currentTerm ≤ args.term := hterm ▸ h.term
  rcases Raft.appendEntries_inv hanswer with ⟨hlt, -, -⟩ | ⟨-, hl⟩
  · omega
  obtain ⟨hreply, hcases⟩ := Raft.appendEntriesLog_inv hl
  rw [Raft.catchUp_currentTerm hle] at hreply
  rw [Raft.catchUp_log] at hcases
  rcases hcases with ⟨hr, hsame⟩ | ⟨hr, ⟨x, hx, hxy⟩, hcases⟩
  · refine Or.inr ⟨hr, ?_⟩
    obtain ⟨hpos, hback, hiff⟩ := h.rollback hy (Raft.catchUp_log follower args.term) hprev hprevTerm hl hr
    have hmoved : leader.sendAppendEntries server args reply = leader.moveNext server (leader.rollback reply) := by
      rcases leader.sendAppendEntries_cases server args reply with ⟨hne, -⟩ | ⟨-, hlt, -⟩ | ⟨-, -, hs, -⟩ | ⟨-, -, -, heq⟩
      · exact absurd hreply.symm hne
      · omega
      · rw [hr] at hs
        cases hs
      · exact heq
    have hnext' : (leader.moveNext server (leader.rollback reply)).nextIndex server = leader.rollback reply := by
      rw [Raft.moveNext_nextIndex]
      exact if_pos rfl
    have hlt := h.lt
    rw [hmoved, hsame]
    refine ⟨⟨h.leaderLog, ?_, ?_, ?_, ?_, ?_, ?_⟩, rfl, ?_, ?_⟩
    · rw [Raft.catchUp_log]
      exact h.followerLog
    · rw [Raft.catchUp_log]
      exact h.real
    · rw [Raft.catchUp_log]
      exact h.related
    · rw [Raft.catchUp_currentTerm hle, hterm, Raft.moveNext_currentTerm]
    · rw [hnext']
      exact hpos
    · rw [hnext', Raft.moveNext_log]
      omega
    · rw [hnext']
      omega
    · rw [hiff, hnext]
      omega
  · refine Or.inl ⟨hr, ?_⟩
    have hlt := h.lt
    have hne : args.entries ≠ [] := by
      rw [hentries, ne_eq, List.drop_eq_nil_iff]
      omega
    obtain ⟨-, hsame⟩ := hcases.resolve_left fun hnil => hne hnil.1
    rw [hprev] at hx
    rw [hsame, Raft.accept_log, Raft.catchUp_log, hprev, hentries]
    exact (Raft.acceptEntries_adopts (h.related.matching h.leaderLog h.followerLog) hx hy (hxy.trans hprevTerm)).covers

end Backing

theorem Raft.Refused.backing {server : Fin n} {x y : Raft n C × Raft n C} (hs : Raft.Refused server x y)
    (h : Backing server x.1 x.2) : Backing server y.1 y.2 := by
  induction hs with
  | refl => exact h
  | tail _ hn ih =>
    obtain ⟨reply, hround, hr⟩ := hn
    obtain ⟨_, _, _, hround', hcases⟩ := ih.exchange
    rw [hround] at hround'
    cases hround'
    rcases hcases with ⟨hs, -⟩ | ⟨-, hback, -⟩
    · rw [hr] at hs
      cases hs
    · exact hback

/-- Every round lowers `nextIndex`, so that its value is enough rounds. -/
theorem Backing.backup_ends {server : Fin n} {fuel : Nat} {leader follower : Raft n C} (h : Backing server leader follower)
    (hfuel : leader.nextIndex server ≤ fuel) :
    ∃ leader' follower', Raft.backup server fuel leader follower = some (leader', follower') ∧
      leader.log <+: follower'.log := by
  induction fuel generalizing leader follower with
  | zero =>
    have := h.pos
    omega
  | succ fuel ih =>
    obtain ⟨leader', follower', reply, hround, hcases⟩ := h.exchange
    unfold Raft.backup
    rw [hround]
    dsimp only
    rcases hcases with ⟨hs, hpre⟩ | ⟨hr, hback, hlog, hlt, -⟩
    · rw [if_pos hs]
      exact ⟨leader', follower', rfl, hpre⟩
    · rw [if_neg (by rw [hr]; simp), ← hlog]
      exact ih hback (by omega)

/-- From any pair of logs as above and any `nextIndex` inside the leader's log: after any number of refused rounds the
    next round can be built, and if it is refused too it lowers `nextIndex`, which stays at least 1; its reply has
    `ConflictIndex` 0 exactly when the peer's log is too short. Some round succeeds, and then the peer's log agrees
    with the leader's at every index of it. -/
theorem fast_backup {server : Fin n} {leader follower : Raft n C} (h : Backing server leader follower) :
    (∀ l f, Raft.Refused server (leader, follower) (l, f) → ∃ l' f' reply,
      l.exchange f server = some (l', f', reply) ∧ (reply.success = false →
        1 ≤ l'.nextIndex server ∧ l'.nextIndex server < l.nextIndex server ∧
        (reply.conflictIndex = 0 ↔ f.log.length - 1 < l.nextIndex server - 1))) ∧
    ∃ fuel l f, Raft.backup server fuel leader follower = some (l, f) ∧
      ∀ k < leader.log.length, f.log[k]? = leader.log[k]? := by
  refine ⟨fun l f hs => ?_, ?_⟩
  · have hback : Backing server l f := hs.backing h
    obtain ⟨l', f', reply, hround, hcases⟩ := hback.exchange
    refine ⟨l', f', reply, hround, fun hr => ?_⟩
    rcases hcases with ⟨hs, -⟩ | ⟨-, hback', -, hlt, hiff⟩
    · rw [hr] at hs
      cases hs
    · have hpos := hback.pos
      have hreal := hback.real
      exact ⟨hback'.pos, hlt, hiff.trans (by omega)⟩
  · obtain ⟨l, f, hrounds, rest, hrest⟩ := h.backup_ends (Nat.le_refl _)
    refine ⟨_, l, f, hrounds, fun k hk => ?_⟩
    rw [← hrest, List.getElem?_append_left hk]

/-- A leader of term 4 with entries of terms 1, 1, 4 and 4, and a peer with entries of terms 1, 2, 2 and 2. -/
def backupLeader : Raft 2 Nat :=
  { Raft.fresh 0 makePersister with
    state := .leader
    currentTerm := 4
    log := [⟨0, none⟩, ⟨1, some 10⟩, ⟨1, some 11⟩, ⟨4, some 12⟩, ⟨4, some 13⟩]
    nextIndex := fun _ => 4 }

def backupFollower : Raft 2 Nat :=
  { Raft.fresh 1 makePersister with
    currentTerm := 2
    log := [⟨0, none⟩, ⟨1, some 10⟩, ⟨2, some 20⟩, ⟨2, some 21⟩, ⟨2, some 22⟩] }

theorem fast_backup_conflict : ∃ fuel l f, Raft.backup 1 fuel backupLeader backupFollower = some (l, f) ∧
    ∀ k < 5, f.log[k]? = backupLeader.log[k]? := by
  have sentinel : ∀ {log : List (Log Nat)}, log[0]? = some Log.fake →
      (∀ k < log.length, ∀ e ∈ log[k]?, e.term = 0 → k = 0) → Sentinel log := fun hhead hzero =>
    ⟨hhead, fun k e he => hzero k (List.getElem?_eq_some_iff.mp he).1 e he⟩
  have hrelated : Related backupLeader.log backupFollower.log := by
    have hall : ∀ i < 5, ∀ j < 5, (backupLeader.log[i]?).map Log.term ≠ (backupFollower.log[j]?).map Log.term ∨
        (backupLeader.log[i]?).map Log.term = some 0 ∨
        backupLeader.log.take (min i j + 1) = backupFollower.log.take (min i j + 1) := by decide
    intro i j e e' he he' hterm h0 k hk
    have hij := hall i (List.getElem?_eq_some_iff.mp he).1 j (List.getElem?_eq_some_iff.mp he').1
    rw [he, he', Option.map_some, Option.map_some, hterm] at hij
    rcases hij with hne | hzero | htake
    · exact absurd rfl hne
    · exact absurd (hterm.trans (Option.some.inj hzero)) h0
    · rw [← List.getElem?_take_of_lt (Nat.lt_succ_of_le hk), htake, List.getElem?_take_of_lt (Nat.lt_succ_of_le hk)]
  exact (fast_backup ⟨sentinel rfl (by decide), sentinel rfl (by decide), by decide, hrelated, by decide, by decide,
    by decide⟩).2

/-! ### `nextIndex` along runs -/

/-- A log that turns out to be too short for a message holds a real entry. -/
def Guard.ShortLogReal (s : Cluster n C) (a : Action n C) : Prop :=
  ∀ c ∈ a.entriesRequest s, (s.peers c.server).rf.log.length ≤ c.args.prevLogIndex →
    2 ≤ (s.peers c.server).rf.log.length

instance (s : Cluster n C) (a : Action n C) : Decidable (Guard.ShortLogReal s a) :=
  inferInstanceAs (Decidable (∀ c ∈ a.entriesRequest s, _))

section Step
variable {s s' : Cluster n C} {a : Action n C} {es : List (Event n C)}

/-- A refusal of its term has a place to go on from: one that reports no conflict reports a length above 0. -/
def AppendEntriesReply.Usable (reply : AppendEntriesReply) (term : Nat) : Prop :=
  reply.term = term → reply.success = false → reply.conflictIndex = 0 → 0 < reply.logLen

theorem Raft.setIndex_pos {f : Fin n → Nat} (h : ∀ p, 0 < f p) {server : Fin n} {v : Nat} (hv : 0 < v) (p : Fin n) :
    0 < Raft.setIndex f server v p := by
  unfold Raft.setIndex
  split
  · exact hv
  · exact h p

/-- A leader that takes up a usable reply stays above 0. -/
theorem Raft.nextIndex_pos {rf : Raft n C} (h : ∀ p, 0 < rf.nextIndex p) (server : Fin n)
    {args : AppendEntriesArgs n C} {reply : AppendEntriesReply} (hu : reply.Usable args.term) (p : Fin n) :
    0 < (rf.sendAppendEntries server args reply).nextIndex p := by
  rcases rf.sendAppendEntries_cases server args reply with ⟨-, heq⟩ | ⟨-, -, heq⟩ | ⟨-, -, -, heq⟩ | ⟨hterm, -, hr, heq⟩ <;>
    rw [heq]
  · exact h p
  · exact h p
  · exact setIndex_pos h (Nat.succ_pos _) p
  · refine setIndex_pos h ?_ p
    rcases rf.rollback_cases reply with ⟨h0, hback⟩ | ⟨-, i, -, -, hback⟩ | ⟨hne, hback⟩ <;> rw [hback]
    · exact hu hterm.symm hr h0
    · exact Nat.succ_pos i
    · exact Nat.pos_of_ne_zero hne

/-- A server with a well-shaped log gives usable replies, unless it finds its log of length 1 too short. -/
theorem Raft.LogShaped.usable {rf rf' : Raft n C} (h : rf.LogShaped) {args : AppendEntriesArgs n C}
    (hargs : args.prevLogIndex = 0 → args.prevLogTerm = 0)
    (hreal : rf.log.length ≤ args.prevLogIndex → 2 ≤ rf.log.length) {reply : AppendEntriesReply}
    (hl : rf.appendEntriesLog args = (rf', reply)) : reply.Usable args.term := by
  intro _ hr h0
  have hterm : ∀ {k : Nat} {e : Log C}, rf.log[k]? = some e → (e.term = 0 ↔ k = 0) := by
    intro k e he
    refine Shaped.zero_iff h ?_
    rw [List.getElem?_map, he]
    rfl
  rcases Raft.appendEntriesLog_refused hl hr with ⟨hshort, -, hlen⟩ | ⟨x, hx, hne, -, hci⟩
  · have := hreal hshort
    omega
  · have hpos : 0 < args.prevLogIndex := Nat.pos_of_ne_zero fun hp => hne (by rw [hargs hp, (hterm hx).mpr hp])
    have hlen : 0 < rf.log.length := Nat.zero_lt_of_lt (List.getElem?_eq_some_iff.mp hx).1
    have hstart : (rf.log[0]?).map Log.term ≠ some x.term := by
      have hhead : rf.log[0]? = some rf.log[0] := List.getElem?_eq_getElem hlen
      rw [hhead, Option.map_some, (hterm hhead).mpr rfl]
      exact fun heq => absurd ((hterm hx).mp (Option.some.inj heq).symm) (Nat.ne_of_gt hpos)
    have := (Raft.conflictIndex_bounds hstart hpos).1
    omega

/-- Messages at index 0 name term 0. -/
def Cluster.StartsAtFake (s : Cluster n C) : Prop :=
  ∀ c ∈ s.appendCalls, c.args.prevLogIndex = 0 → c.args.prevLogTerm = 0

theorem Cluster.StartsAtFake.step (h : s.StartsAtFake) (hshaped : s.LogsShaped)
    (hs : DistributedLabs.step s a = some (s', es)) : s'.StartsAtFake := by
  intro c hc hp
  rcases (step_appendCalls hs hc).origin with ⟨d, hd, -, -, -, hargs⟩ | ⟨-, -, hb, -⟩
  · rw [← hargs] at hp ⊢
    exact h d hd hp
  · obtain ⟨prevLog, hprev, hterm⟩ := hb.prevLog
    rw [← hterm]
    refine (Shaped.zero_iff (hshaped.logs c.caller) (k := c.args.prevLogIndex) ?_).mpr hp
    rw [List.getElem?_map, hprev]
    rfl

/-- Replies are usable, and a server with a leader loop has no `nextIndex` of 0. -/
structure Cluster.NextIndices (s : Cluster n C) : Prop where
  replies : ∀ c ∈ s.appendCalls, ∀ reply, c.stage = .replied reply → reply.Usable c.args.term
  leaders : ∀ i, 0 < (s.peers i).leaders → ∀ p, 0 < (s.peers i).rf.nextIndex p

theorem Cluster.nextIndices_init : (Cluster.init n C).NextIndices where
  replies c hc := by cases hc
  leaders i hi := absurd hi (Nat.lt_irrefl 0)

theorem Cluster.NextIndices.step (h : s.NextIndices) (hshaped : s.LogsShaped) (hfake : s.StartsAtFake)
    (hg : Guard.ShortLogReal s a) (hs : DistributedLabs.step s a = some (s', es)) : s'.NextIndices where
  replies c hc reply hst := by
    rcases step_replied hs hc hst with hold | hlt | ⟨k, d, rf, rfl, hd, hargs, hl⟩
    · exact h.replies c hold reply hst
    · intro hterm
      omega
    · have hmem := List.mem_of_getElem? hd
      rw [← hargs]
      exact (hshaped.logs d.server).usable (hfake d hmem) (hg d hd) hl
  leaders i hlead p := by
    have install : 0 < ((s.peers i).rf.leader).nextIndex p := (hshaped.logs i).length_pos
    rcases step_leaders hs i with hle | hinstalled
    · have hold := h.leaders i (Nat.lt_of_lt_of_le hlead hle)
      cases (step_rf hs i).indices with
      | kept hnext =>
        rw [hnext]
        exact hold p
      | installed _ hrf =>
        rw [hrf]
        exact install
      | @taken k c reply _ hc _ hst hrf =>
        rw [hrf]
        exact Raft.nextIndex_pos hold c.server (h.replies c (List.mem_of_getElem? hc) reply hst) p
      | restarted ha =>
        subst ha
        obtain ⟨rf, -, rfl, -⟩ := Step.crash_inv hs
        rw [Cluster.setPeer_self] at hlead
        exact absurd hlead (Nat.lt_irrefl 0)
    · rw [hinstalled]
      exact install

end Step

theorem World.Reachable.startsAtFake {P : Cluster n C → Action n C → Prop} {w : World n C}
    (hw : World.Reachable P w) : w.cluster.StartsAtFake := by
  refine World.Reachable.keeps (I := fun w => w.cluster.StartsAtFake) ?_ hw fun _ hc => (by cases hc)
  intro w w' a hw h _ hs
  obtain ⟨es, hs, -⟩ := World.step_inv hs
  exact h.step hw.logsShaped hs

theorem World.Reachable.nextIndices {w : World n C} (hw : World.Reachable Guard.ShortLogReal w) :
    w.cluster.NextIndices := by
  refine World.Reachable.keeps (I := fun w => w.cluster.NextIndices) ?_ hw Cluster.nextIndices_init
  intro w w' a hw h hg hs
  obtain ⟨es, hs, -⟩ := World.step_inv hs
  exact h.step hw.logsShaped hw.startsAtFake hg hs

/-- The replication loop runs to its end if no `nextIndex` is 0. -/
theorem Raft.replicate_ends {rf : Raft n C} (h : ∀ p, 0 < rf.nextIndex p) (servers : List (Fin n)) :
    (rf.replicate servers).2 = true := by
  induction servers with
  | nil => rfl
  | cons server servers ih =>
    unfold Raft.replicate
    split
    · rename_i hlt
      obtain ⟨prev, hprev⟩ := Nat.exists_eq_succ_of_ne_zero (Nat.ne_of_gt (h server))
      rw [hprev] at hlt ⊢
      unfold Raft.replicationArgs
      dsimp only
      rw [List.getElem?_eq_getElem (Nat.lt_of_succ_lt hlt)]
      exact ih
    · exact ih

/-- In every run in which a log that is too short for a message holds a real entry: as long as a server has a leader
    loop, each `nextIndex` it reads is at least 1, and a round builds all its messages. -/
theorem next_index_inside_log {w : World n C} (hw : World.Reachable Guard.ShortLogReal w) {i : Fin n}
    (hl : 0 < (w.cluster.peers i).leaders) :
    (∀ p, 1 ≤ (w.rf i).nextIndex p) ∧ ((w.rf i).replicate (List.finRange n)).2 = true := by
  have hpos := hw.nextIndices.leaders i hl
  exact ⟨hpos, Raft.replicate_ends hpos _⟩

/-- Server 1 has the first entry of server 0 and gets a heartbeat that presupposes the third. -/
def shortLog : List (Action 3 Nat) :=
  [.startElectionTimer 0, .candidate 0, .requestVote 0, .sendRequestVote 0, .poll 0 0, .leader 0, .start 0 (some 10),
    .leaderLoop 0, .appendEntriesTerm 1, .appendEntriesLog 1, .sendAppendEntries 1, .start 0 (some 11),
    .start 0 (some 12), .startHeartBeat 0, .appendEntriesTerm 3, .appendEntriesLog 3, .sendAppendEntries 3]

theorem next_index_inside_log_short : ∃ w : World 3 Nat, 0 < (w.cluster.peers 0).leaders ∧ (w.rf 0).nextIndex 1 = 1 ∧
    ((w.rf 0).replicate (List.finRange 3)).2 = true := by
  obtain ⟨w, hw, h⟩ := World.exec_any Guard.ShortLogReal (World.init 3 Nat) shortLog
    (fun w => decide (0 < (w.cluster.peers 0).leaders ∧ (w.rf 0).nextIndex 1 = 1)) (by decide)
  obtain ⟨hl, hnext⟩ := of_decide_eq_true h
  exact ⟨w, hl, hnext, (next_index_inside_log (World.exec_steps hw) hl).2⟩

/-- The heartbeat after the first command of server 0 finds the log of server 1 empty but for the fake entry: the
    reported length is 0, and the next round of the leader loop panics. -/
def emptyLog : List (Action 3 Nat) :=
  [.startElectionTimer 0, .candidate 0, .requestVote 0, .sendRequestVote 0, .poll 0 0, .leader 0, .start 0 (some 10),
    .startHeartBeat 0, .appendEntriesTerm 0, .appendEntriesLog 0, .sendAppendEntries 0]

theorem leader_loop_panics : ∃ w w' : World 3 Nat, World.Reachable World.Any w ∧ (w.rf 0).state = .leader ∧
    0 < (w.cluster.peers 0).leaders ∧ (w.rf 0).nextIndex 1 = 0 ∧ w.step (.leaderLoop 0) = some w' ∧
    (w'.cluster.peers 0).panicked = true := by
  obtain ⟨w, hw, h⟩ := World.exec_any World.Any (World.init 3 Nat) emptyLog
    (fun w => decide ((w.rf 0).state = .leader ∧ 0 < (w.cluster.peers 0).leaders ∧ (w.rf 0).nextIndex 1 = 0) &&
      (w.step (.leaderLoop 0)).any fun (w' : World 3 Nat) => (w'.cluster.peers 0).panicked) (by decide)
  obtain ⟨hw', h⟩ := Bool.and_eq_true_iff.mp h
  obtain ⟨hl, hloop, hnext⟩ := of_decide_eq_true hw'
  obtain ⟨w', hs, h⟩ := (Option.any_eq_true _ _).mp h
  exact ⟨w, w', World.exec_steps hw, hl, hloop, hnext, hs, h⟩

end DistributedLabs
