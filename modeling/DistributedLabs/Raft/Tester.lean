import DistributedLabs.Raft.Applied

/-! The checks that the tester makes on a running cluster: one goroutine per `applyCh` compares each message with what
    it has seen of all servers, and `nCommitted` counts the servers that committed an index. -/

namespace DistributedLabs

variable {n : Nat} {C : Type}

/-! ### The readers of the channels -/

/-- `config`, with the fields that the readers and `nCommitted` use. -/
structure Config (n : Nat) (C : Type) where
  applyErr : Fin n → String
  logs : Fin n → Nat → Option (Option C)
  maxIndex : Nat

namespace Config

def make_config (n : Nat) (C : Type) : Config n C where
  applyErr := fun _ => ""
  logs := fun _ _ => none
  maxIndex := 0

/-- `cfg.logs[i][m.CommandIndex] = v`, and `maxIndex` with it. -/
def store (cfg : Config n C) (i : Fin n) (m : ApplyMsg C) : Config n C :=
  { cfg with
    logs := Function.update cfg.logs i (Function.update (cfg.logs i) m.commandIndex (some m.command))
    maxIndex := if m.commandIndex > cfg.maxIndex then m.commandIndex else cfg.maxIndex }

theorem store_logs (cfg : Config n C) (i : Fin n) (m : ApplyMsg C) (j : Fin n) (index : Nat) :
    (cfg.store i m).logs j index = if j = i ∧ index = m.commandIndex then some m.command else cfg.logs j index := by
  unfold store
  by_cases hj : j = i
  · subst hj
    by_cases hindex : index = m.commandIndex
    · subst hindex
      simp
    · simp [hindex]
  · simp [hj]

theorem store_isSome {cfg : Config n C} {i j : Fin n} {m : ApplyMsg C} {index : Nat}
    (h : (cfg.logs j index).isSome = true) : ((cfg.store i m).logs j index).isSome = true := by
  rw [store_logs]
  split
  · rfl
  · exact h

/-- `%v` of a command. -/
def showCommand [ToString C] : Option C → String
  | none => "<nil>"
  | some c => toString c

section Reader
variable [DecidableEq C] [ToString C]

/-- The message on a server that has another command at the index of `m`. -/
def mismatch (i : Fin n) (m : ApplyMsg C) (j : Fin n) (old : Option C) : String :=
  "commit index=" ++ toString m.commandIndex ++ " server=" ++ toString i ++ " " ++ showCommand m.command ++
    " != server=" ++ toString j ++ " " ++ showCommand old

/-- The loop over all logs, which keeps the message on the last mismatch. -/
def compare (cfg : Config n C) (i : Fin n) (m : ApplyMsg C) (servers : List (Fin n)) : String :=
  servers.foldl (fun err_msg j => match cfg.logs j m.commandIndex with
    | none => err_msg
    | some old => if old ≠ m.command then mismatch i m j old else err_msg) ""

/-- One round of the goroutine that `start1` starts for server `i`: the config and `err_msg`. -/
def receive (cfg : Config n C) (i : Fin n) (m : ApplyMsg C) : Config n C × String :=
  if m.commandValid = false then (cfg, "")
  else
    let err_msg := cfg.compare i m (List.finRange n)
    let prevok := (cfg.logs i (m.commandIndex - 1)).isSome
    let err_msg := if m.commandIndex > 1 ∧ prevok = false then
      "server " ++ toString i ++ " apply out of order " ++ toString m.commandIndex else err_msg
    (cfg.store i m, err_msg)

theorem compare_of_agree {cfg : Config n C} {i : Fin n} {m : ApplyMsg C}
    (h : ∀ j old, cfg.logs j m.commandIndex = some old → old = m.command) (servers : List (Fin n)) :
    cfg.compare i m servers = "" := by
  unfold compare
  induction servers with
  | nil => rfl
  | cons j servers ih =>
    rw [List.foldl_cons]
    split
    · exact ih
    · rename_i old hold
      rw [if_neg (not_not.mpr (h j old hold))]
      exact ih

/-- A message that agrees with all logs, and comes after one that was received, is stored without complaint. -/
theorem receive_of_agree {cfg : Config n C} {i : Fin n} {m : ApplyMsg C} (hvalid : m.commandValid = true)
    (hagree : ∀ j old, cfg.logs j m.commandIndex = some old → old = m.command)
    (hprev : m.commandIndex > 1 → (cfg.logs i (m.commandIndex - 1)).isSome = true) :
    cfg.receive i m = (cfg.store i m, "") := by
  have hno : ¬ (m.commandIndex > 1 ∧ (cfg.logs i (m.commandIndex - 1)).isSome = false) := by
    rintro ⟨hgt, hnone⟩
    rw [hprev hgt] at hnone
    cases hnone
  unfold receive
  rw [if_neg (by rw [hvalid]; decide)]
  dsimp only
  rw [if_neg hno, compare_of_agree hagree]

/-- One round of the loop of `nCommitted`, which takes the lock for each server anew. -/
def countServer (cfg : Config n C) (index : Nat) (i : Fin n) : Nat × Option C → Except String (Nat × Option C)
  | (count, cmd) =>
    if cfg.applyErr i ≠ "" then .error (cfg.applyErr i)
    else match cfg.logs i index with
      | none => .ok (count, cmd)
      | some cmd1 =>
        if count > 0 ∧ cmd ≠ cmd1 then
          .error ("committed values do not match: index " ++ toString index ++ ", " ++ showCommand cmd ++ ", " ++
            showCommand cmd1 ++ "\n")
        else .ok (count + 1, cmd1)

/-- `nCommitted`, where `cfgs i` is the config as it is when the loop is at server `i`. -/
def nCommitted (cfgs : Fin n → Config n C) (index : Nat) : Except String (Nat × Option C) :=
  (List.finRange n).foldlM (fun counted i => (cfgs i).countServer index i counted) (0, none)

/-- If the servers that committed `index` agree on `c`, the loop counts them and ends with `c`. -/
theorem countServers_of_agree {cfgs : Fin n → Config n C} {index : Nat} {c : Option C}
    (herr : ∀ i, (cfgs i).applyErr i = "") (hagree : ∀ i v, (cfgs i).logs i index = some v → v = c)
    (servers : List (Fin n)) (count : Nat) (cmd : Option C) (hcmd : count > 0 → cmd = c) :
    ∃ cmd', servers.foldlM (fun counted i => (cfgs i).countServer index i counted) (count, cmd) =
        .ok (count + servers.countP fun i => ((cfgs i).logs i index).isSome, cmd') ∧
      (count + (servers.countP fun i => ((cfgs i).logs i index).isSome) > 0 → cmd' = c) := by
  induction servers generalizing count cmd with
  | nil => exact ⟨cmd, rfl, hcmd⟩
  | cons i servers ih =>
    rw [List.foldlM_cons]
    cases hread : (cfgs i).logs i index with
    | none =>
      have hround : (cfgs i).countServer index i (count, cmd) = .ok (count, cmd) := by
        simp [countServer, herr i, hread]
      rw [hround, List.countP_cons_of_neg (by simp [hread])]
      exact ih count cmd hcmd
    | some v =>
      have hv := hagree i v hread
      have hsame : ¬ (count > 0 ∧ cmd ≠ v) := fun ⟨hpos, hne⟩ => hne ((hcmd hpos).trans hv.symm)
      have hround : (cfgs i).countServer index i (count, cmd) = .ok (count + 1, v) := by
        simp only [countServer, herr i, hread, ne_eq, not_true_eq_false, if_false, if_neg hsame]
      rw [hround, List.countP_cons_of_pos (by simp [hread]), ← Nat.add_assoc, Nat.add_right_comm]
      exact ih (count + 1) v fun _ => hv

end Reader

end Config

/-! ### The test process -/

/-- A cluster under test: what each incarnation of a server has sent and its reader has not received yet, the config,
    and the message with which `log.Fatalf` ended the process. -/
structure Test (n : Nat) (C : Type) where
  world : World n C
  channels : Fin n → List (List (ApplyMsg C))
  cfg : Config n C
  fatal : Option String

namespace Test

/-- A step of the cluster, or a round of the reader of the `k`-th last incarnation of server `i`. -/
inductive Action (n : Nat) (C : Type) where
  | raft (a : DistributedLabs.Action n C)
  | receive (i : Fin n) (k : Nat)

def init (n : Nat) (C : Type) : Test n C where
  world := World.init n C
  channels := fun _ => [[]]
  cfg := Config.make_config n C
  fatal := none

section Step
variable [DecidableEq C] [ToString C]

def raft (t : Test n C) (a : DistributedLabs.Action n C) : Option (Test n C) :=
  match t.world.step a with
  | none => none
  | some w => some { t with
      world := w
      channels := fun i => (w.events.drop t.world.events.length).foldl (record i) (t.channels i) }

def receive (t : Test n C) (i : Fin n) (k : Nat) : Option (Test n C) :=
  match (t.channels i)[k]? with
  | some (m :: rest) =>
    let (cfg, err_msg) := t.cfg.receive i m
    some { t with
      channels := Function.update t.channels i ((t.channels i).set k rest)
      cfg := cfg
      fatal := if err_msg ≠ "" then some ("apply error: " ++ err_msg ++ "\n") else none }
  | _ => none

def step (t : Test n C) (a : Action n C) : Option (Test n C) :=
  if t.fatal.isSome then none
  else match a with
    | .raft a => t.raft a
    | .receive i k => t.receive i k

/-- The steps of the cluster meet the conditions of agreement. -/
def Safe (t : Test n C) : Action n C → Prop
  | .raft a => Guard.Safe t.world.cluster a
  | .receive _ _ => True

instance (t : Test n C) (a : Action n C) : Decidable (t.Safe a) :=
  match a with
  | .raft a => inferInstanceAs (Decidable (Guard.Safe t.world.cluster a))
  | .receive _ _ => inferInstanceAs (Decidable True)

def Steps : Test n C → Test n C → Prop := Run.Steps step Safe

def Reachable (t : Test n C) : Prop := Steps (init n C) t

/-- What a step does. -/
inductive Stepped (t : Test n C) : Action n C → Test n C → Prop where
  | raft {a : DistributedLabs.Action n C} {w : World n C} (hs : t.world.step a = some w)
      {channels : Fin n → List (List (ApplyMsg C))}
      (hsends : ∀ i, Sends (t.world.cluster.peers i) (w.cluster.peers i) (t.channels i) (channels i))
      (hmem : ∀ i, ∀ msgs ∈ channels i, ∀ msg ∈ msgs, (∃ old ∈ t.channels i, msg ∈ old) ∨ .applied i msg ∈ w.events) :
      Stepped t (.raft a) { t with world := w, channels }
  | receive {i : Fin n} {k : Nat} {m : ApplyMsg C} {rest : List (ApplyMsg C)}
      (hk : (t.channels i)[k]? = some (m :: rest)) :
      Stepped t (.receive i k)
        { t with
          channels := Function.update t.channels i ((t.channels i).set k rest)
          cfg := (t.cfg.receive i m).1
          fatal := if (t.cfg.receive i m).2 ≠ "" then some ("apply error: " ++ (t.cfg.receive i m).2 ++ "\n") else none }

theorem step_inv {t t' : Test n C} {a : Action n C} (h : t.step a = some t') : t.fatal = none ∧ t.Stepped a t' := by
  unfold step at h
  split at h
  · cases h
  · rename_i hfatal
    refine ⟨by simpa using hfatal, ?_⟩
    split at h
    · rename_i a
      unfold raft at h
      split at h
      · cases h
      · rename_i w hs
        cases h
        obtain ⟨es, hstep, hevents⟩ := World.step_inv hs
        refine .raft hs (fun i => ?_) fun i msgs hmsgs msg hmsg => ?_
        · rw [hevents, List.drop_left]
          exact step_sends hstep i _
        · exact (of_mem_foldl_record hmsgs hmsg).imp_right fun he => List.mem_of_mem_drop he
    · rename_i i k
      unfold receive at h
      split at h
      · rename_i m rest hk
        cases h
        exact .receive hk
      · cases h

end Step

/-! ### What holds along a test -/

/-- The messages have the indices after `k`, and the reader of server `i` has received those up to `k`. -/
def Continues (cfg : Config n C) (i : Fin n) (k : Nat) (msgs : List (ApplyMsg C)) : Prop :=
  msgs.map ApplyMsg.commandIndex = List.range' (k + 1) msgs.length ∧
    ∀ index, 1 ≤ index → index ≤ k → (cfg.logs i index).isSome = true

namespace Continues

variable {cfg : Config n C} {i : Fin n} {k : Nat} {m : ApplyMsg C} {msgs rest : List (ApplyMsg C)}

theorem append {new : List (ApplyMsg C)} (h : Continues cfg i k msgs)
    (hnew : new.map ApplyMsg.commandIndex = List.range' (k + msgs.length + 1) new.length) :
    Continues cfg i k (msgs ++ new) := by
  refine ⟨?_, h.2⟩
  rw [List.map_append, h.1, hnew, List.length_append, Nat.add_right_comm k msgs.length 1, List.range'_append_1]

theorem commandIndex (h : Continues cfg i k (m :: rest)) : m.commandIndex = k + 1 := by
  have hmap := h.1
  rw [List.map_cons, List.length_cons, List.range'_succ] at hmap
  exact (List.cons.inj hmap).1

/-- The reader has the message before the next one. -/
theorem previous (h : Continues cfg i k (m :: rest)) (hgt : m.commandIndex > 1) :
    (cfg.logs i (m.commandIndex - 1)).isSome = true := by
  rw [h.commandIndex] at hgt ⊢
  exact h.2 (k + 1 - 1) (by omega) (by omega)

theorem store (h : Continues cfg i k msgs) (j : Fin n) (m : ApplyMsg C) : Continues (cfg.store j m) i k msgs :=
  ⟨h.1, fun index hpos hle => Config.store_isSome (h.2 index hpos hle)⟩

theorem received (h : Continues cfg i k (m :: rest)) : Continues (cfg.store i m) i (k + 1) rest := by
  have hmap := h.1
  rw [List.map_cons, List.length_cons, List.range'_succ] at hmap
  refine ⟨(List.cons.inj hmap).2, fun index hpos hle => ?_⟩
  rcases Nat.lt_or_eq_of_le hle with hlt | rfl
  · exact Config.store_isSome (h.2 index hpos (Nat.le_of_lt_succ hlt))
  · rw [Config.store_logs, if_pos ⟨rfl, h.commandIndex.symm⟩]
    rfl

end Continues

/-- Each channel of server `i` goes on where its reader is, and that of the current incarnation ends at `lastApplied`. -/
def InOrder (cfg : Config n C) (i : Fin n) (p : Peer n C) (channels : List (List (ApplyMsg C))) : Prop :=
  (∀ msgs ∈ channels, ∃ k, Continues cfg i k msgs) ∧
    ∃ msgs past k, channels = msgs :: past ∧ Continues cfg i k msgs ∧
      (p.panicked = false → k + msgs.length = p.rf.lastApplied)

namespace InOrder

variable {cfg : Config n C} {i : Fin n} {p p' : Peer n C} {channels channels' : List (List (ApplyMsg C))}

theorem sends (h : InOrder cfg i p channels) (hs : Sends p p' channels channels') : InOrder cfg i p' channels' := by
  obtain ⟨hall, msgs, past, k, rfl, hk, hlast⟩ := h
  cases hs with
  | nothing hlast' hp =>
    exact ⟨hall, msgs, past, k, rfl, hk, fun hpanicked => (hlast (hp hpanicked)).trans hlast'.symm⟩
  | @batch new hp _ hindices hlast' =>
    have happend : Continues cfg i k (msgs ++ new) := by
      refine hk.append ?_
      rw [hlast hp]
      exact hindices
    refine ⟨?_, msgs ++ new, past, k, rfl, happend, fun hpanicked => ?_⟩
    · intro x hx
      rcases List.mem_cons.mp hx with rfl | hx
      · exact ⟨k, happend⟩
      · exact hall x (List.mem_cons_of_mem _ hx)
    · rw [List.length_append, ← Nat.add_assoc, hlast hp]
      exact (hlast' hpanicked).symm
  | restart hlast' =>
    have hstart : Continues cfg i 0 [] := ⟨rfl, fun index hpos hle => by omega⟩
    refine ⟨?_, [], msgs :: past, 0, rfl, hstart, fun _ => hlast'.symm⟩
    intro x hx
    rcases List.mem_cons.mp hx with rfl | hx
    · exact ⟨0, hstart⟩
    · exact hall x hx

theorem store (h : InOrder cfg i p channels) (j : Fin n) (m : ApplyMsg C) : InOrder (cfg.store j m) i p channels := by
  obtain ⟨hall, msgs, past, k, hchannels, hk, hlast⟩ := h
  refine ⟨fun x hx => ?_, msgs, past, k, hchannels, hk.store j m, hlast⟩
  obtain ⟨l, hl⟩ := hall x hx
  exact ⟨l, hl.store j m⟩

theorem received {l : Nat} {m : ApplyMsg C} {rest : List (ApplyMsg C)} (h : InOrder cfg i p channels)
    (hl : channels[l]? = some (m :: rest)) : InOrder (cfg.store i m) i p (channels.set l rest) := by
  obtain ⟨hall, msgs, past, k, hchannels, hk, hlast⟩ := h.store i m
  refine ⟨fun x hx => ?_, ?_⟩
  · rcases List.mem_or_eq_of_mem_set hx with hx | rfl
    · exact hall x hx
    · obtain ⟨k', hk'⟩ := h.1 _ (List.mem_of_getElem? hl)
      exact ⟨k' + 1, hk'.received⟩
  · subst hchannels
    cases l with
    | zero =>
      cases hl
      obtain ⟨-, _, _, k, heq, hk, hlast⟩ := h
      cases heq
      refine ⟨rest, past, k + 1, rfl, hk.received, fun hpanicked => ?_⟩
      rw [← hlast hpanicked, List.length_cons]
      omega
    | succ l => exact ⟨msgs, past.set l rest, k, rfl, hk, hlast⟩

end InOrder

/-- What holds along a test of a cluster that meets the conditions. -/
structure Inv (t : Test n C) : Prop where
  safe : World.Reachable Guard.Safe t.world
  fatal : t.fatal = none
  applyErr : ∀ i, t.cfg.applyErr i = ""
  stored : ∀ i index v, t.cfg.logs i index = some v →
    ∃ msg, .applied i msg ∈ t.world.events ∧ msg.commandIndex = index ∧ msg.command = v
  sent : ∀ i, ∀ msgs ∈ t.channels i, ∀ msg ∈ msgs, .applied i msg ∈ t.world.events ∧ msg.commandValid = true
  order : ∀ i, InOrder t.cfg i (t.world.cluster.peers i) (t.channels i)

theorem inv_init : (init n C).Inv where
  safe := Relation.ReflTransGen.refl
  fatal := rfl
  applyErr _ := rfl
  stored i index v h := by cases h
  sent i msgs hmsgs msg hmsg := by
    rw [List.mem_singleton.mp hmsgs] at hmsg
    cases hmsg
  order i := by
    have hstart : Continues (Config.make_config n C) i 0 [] := ⟨rfl, fun index hpos hle => by omega⟩
    refine ⟨fun msgs hmsgs => ⟨0, ?_⟩, [], [], 0, rfl, hstart, fun _ => rfl⟩
    rw [List.mem_singleton.mp hmsgs]
    exact hstart

section Run
variable {t t' : Test n C} {a : Action n C}

/-- Everything that was stored or applied at one index is one command. -/
theorem Inv.agree (h : t.Inv) {i j : Fin n} {index : Nat} {v : Option C} (hv : t.cfg.logs j index = some v)
    {msg : ApplyMsg C} (hmsg : .applied i msg ∈ t.world.events) (hindex : msg.commandIndex = index) :
    v = msg.command := by
  obtain ⟨log, hlog⟩ := h.safe.follows
  obtain ⟨msg', hmsg', hindex', rfl⟩ := h.stored j index v hv
  obtain ⟨e, he, hcommand⟩ := hlog _ hmsg
  obtain ⟨e', he', hcommand'⟩ := hlog _ hmsg'
  rw [hindex', ← hindex, he] at he'
  cases he'
  rw [hcommand, hcommand']

variable [DecidableEq C] [ToString C]

/-- A reader stores the next message of its channel without complaint. -/
theorem Inv.receives (h : t.Inv) {i : Fin n} {k : Nat} {m : ApplyMsg C} {rest : List (ApplyMsg C)}
    (hk : (t.channels i)[k]? = some (m :: rest)) : t.cfg.receive i m = (t.cfg.store i m, "") := by
  have hmem := List.mem_of_getElem? hk
  obtain ⟨happlied, hvalid⟩ := h.sent i _ hmem m List.mem_cons_self
  obtain ⟨k', hcontinues⟩ := (h.order i).1 _ hmem
  exact Config.receive_of_agree hvalid (fun j old hold => h.agree hold happlied rfl) hcontinues.previous

theorem Inv.step (h : t.Inv) (hg : t.Safe a) (hs : t.step a = some t') : t'.Inv := by
  obtain ⟨-, hstepped⟩ := step_inv hs
  cases hstepped with
  | @raft a w hw channels hsends hmem =>
    obtain ⟨es, -, hevents⟩ := World.step_inv hw
    have hsub : ∀ {e}, e ∈ t.world.events → e ∈ w.events := fun he => hevents ▸ List.mem_append_left _ he
    refine ⟨h.safe.tail ⟨a, hg, hw⟩, h.fatal, h.applyErr, fun i index v hv => ?_, fun i msgs hmsgs msg hmsg => ?_,
      fun i => (h.order i).sends (hsends i)⟩
    · obtain ⟨msg, hmsg, hm⟩ := h.stored i index v hv
      exact ⟨msg, hsub hmsg, hm⟩
    · refine ⟨?_, (hsends i).valid (fun msgs hmsgs msg hmsg => (h.sent i msgs hmsgs msg hmsg).2) hmsgs hmsg⟩
      rcases hmem i msgs hmsgs msg hmsg with ⟨old, hold, hmem⟩ | hnew
      · exact hsub (h.sent i old hold msg hmem).1
      · exact hnew
  | @receive i k m rest hk =>
    have happlied := h.sent i _ (List.mem_of_getElem? hk) m List.mem_cons_self
    rw [h.receives hk]
    refine ⟨h.safe, rfl, h.applyErr, fun j index v hv => ?_, fun j msgs hmsgs msg hmsg => ?_, fun j => ?_⟩ <;>
      dsimp only at *
    · rw [Config.store_logs] at hv
      split at hv
      · rename_i heq
        obtain ⟨rfl, rfl⟩ := heq
        exact ⟨m, happlied.1, rfl, Option.some.inj hv⟩
      · exact h.stored j index v hv
    · by_cases hj : j = i
      · subst hj
        rw [Function.update_self] at hmsgs
        rcases List.mem_or_eq_of_mem_set hmsgs with hmsgs | rfl
        · exact h.sent j msgs hmsgs msg hmsg
        · exact h.sent j _ (List.mem_of_getElem? hk) msg (List.mem_cons_of_mem _ hmsg)
      · rw [Function.update_of_ne hj] at hmsgs
        exact h.sent j msgs hmsgs msg hmsg
    · by_cases hj : j = i
      · subst hj
        rw [Function.update_self]
        exact (h.order j).received hk
      · rw [Function.update_of_ne hj]
        exact (h.order j).store i m

theorem Reachable.inv (h : t.Reachable) : t.Inv := Run.Steps.keeps (fun _ _ _ h hg hs => h.step hg hs) h inv_init

/-- In every test of a cluster that meets the conditions, also with crashes, and whenever the readers get to run: no
    reader ever ends the process, neither with a mismatch nor with a message out of order. -/
theorem no_apply_error (h : t.Reachable) : t.fatal = none := h.inv.fatal

/-- The readers of both incarnations of server 2 get their message after the restart, the later one first. -/
def receivedAgain : List (Action 3 Nat) :=
  appliedAgain.map .raft ++ [.receive 0 0, .receive 2 0, .receive 2 1]

theorem no_apply_error_restarted : ∃ t : Test 3 Nat, t.Reachable ∧ t.channels 2 = [[], []] ∧
    t.cfg.logs 0 1 = some (some 10) ∧ t.cfg.logs 2 1 = some (some 10) ∧ t.fatal = none := by
  obtain ⟨t, ht, h⟩ := Run.exec_any step Safe (init 3 Nat) receivedAgain
    (fun t => decide (t.channels 2 = [[], []] ∧ t.cfg.logs 0 1 = some (some 10) ∧ t.cfg.logs 2 1 = some (some 10)))
    (by decide +kernel)
  obtain ⟨hread, h₀, h₂⟩ := of_decide_eq_true h
  exact ⟨t, Run.exec_steps ht, hread, h₀, h₂, no_apply_error (Run.exec_steps ht)⟩

theorem Reachable.steps (h : t.Reachable) (hs : t.Steps t') : t'.Reachable := Relation.ReflTransGen.trans h hs

theorem Inv.keeps_log (h : t.Inv) (hs : t.step a = some t') {i : Fin n} {index : Nat} {v : Option C}
    (hv : t.cfg.logs i index = some v) : t'.cfg.logs i index = some v := by
  obtain ⟨-, hstepped⟩ := step_inv hs
  cases hstepped with
  | raft => exact hv
  | @receive j k m rest hk =>
    have happlied := (h.sent j _ (List.mem_of_getElem? hk) m List.mem_cons_self).1
    rw [h.receives hk]
    dsimp only
    rw [Config.store_logs]
    split
    · rename_i heq
      rw [h.agree hv happlied heq.2.symm]
    · exact hv

/-- What a reader has stored stays. -/
theorem Steps.keeps_log (hs : t.Steps t') (h : t.Reachable) {i : Fin n} {index : Nat} {v : Option C}
    (hv : t.cfg.logs i index = some v) : t'.cfg.logs i index = some v := by
  have hkept : t'.Inv ∧ t'.cfg.logs i index = some v :=
    Run.Steps.keeps (I := fun t' => t'.Inv ∧ t'.cfg.logs i index = some v)
      (fun _ _ _ h hg hs => ⟨h.1.step hg hs, h.1.keeps_log hs h.2⟩) hs ⟨h.inv, hv⟩
  exact hkept.2

theorem Steps.agree (hs : t.Steps t') (h : t.Reachable) {i j : Fin n} {index : Nat} {v v' : Option C}
    (hv : t.cfg.logs i index = some v) (hv' : t'.cfg.logs j index = some v') : v = v' := by
  have hinv := (h.steps hs).inv
  obtain ⟨msg, hmsg, hindex, rfl⟩ := hinv.stored j index v' hv'
  exact hinv.agree (hs.keeps_log h hv) hmsg hindex

/-! ### `nCommitted` -/

/-- The states of a test in which the rounds of a loop over the servers run. -/
structure Rounds (rounds : Fin n → Test n C) : Prop where
  reachable : ∀ i, (rounds i).Reachable
  ordered : ∀ i j, i ≤ j → (rounds i).Steps (rounds j)

def Rounds.committed (rounds : Fin n → Test n C) (index : Nat) : Nat :=
  (List.finRange n).countP fun i => ((rounds i).cfg.logs i index).isSome

theorem Rounds.agree {rounds : Fin n → Test n C} (h : Rounds rounds) {i j : Fin n} {index : Nat} {v v' : Option C}
    (hv : (rounds i).cfg.logs i index = some v) (hv' : (rounds j).cfg.logs j index = some v') : v = v' := by
  rcases Nat.le_total i j with hle | hle
  · exact (h.ordered i j hle).agree (h.reachable i) hv hv'
  · exact ((h.ordered j i hle).agree (h.reachable j) hv' hv).symm

/-- The result of `nCommitted`: the number of servers that committed the index, and their command. -/
theorem Rounds.nCommitted {rounds : Fin n → Test n C} (h : Rounds rounds) (index : Nat) :
    ∃ cmd, Config.nCommitted (fun i => (rounds i).cfg) index = .ok (committed rounds index, cmd) ∧
      ∀ i v, (rounds i).cfg.logs i index = some v → v = cmd := by
  have herr : ∀ i, (rounds i).cfg.applyErr i = "" := fun i => (h.reachable i).inv.applyErr i
  -- Any command serves for the loop if no server committed the index.
  have hcommon : ∃ c, ∀ i v, (rounds i).cfg.logs i index = some v → v = c := by
    by_cases hsome : ∃ i v, (rounds i).cfg.logs i index = some v
    · obtain ⟨i, c, hc⟩ := hsome
      exact ⟨c, fun j v hv => h.agree hv hc⟩
    · exact ⟨none, fun i v hv => absurd ⟨i, v, hv⟩ hsome⟩
  obtain ⟨c, hc⟩ := hcommon
  obtain ⟨cmd, hok, hcmd⟩ := Config.countServers_of_agree herr hc (List.finRange n) 0 none
    (fun hpos => absurd hpos (Nat.lt_irrefl 0))
  rw [Nat.zero_add] at hok hcmd
  refine ⟨cmd, hok, fun i v hv => ?_⟩
  rw [hcmd (List.countP_pos_iff.mpr ⟨i, List.mem_finRange i, by rw [hv]; rfl⟩)]
  exact hc i v hv

/-- In every test of a cluster that meets the conditions: `nCommitted` reports no mismatch, and a second call for the
    same index counts no fewer servers and, once one has committed the index, gives the same command. -/
theorem nCommitted_stable {rounds later : Fin n → Test n C} (h : Rounds rounds) (h' : Rounds later)
    (hlater : ∀ i j, (rounds i).Steps (later j)) (index : Nat) :
    ∃ count cmd count' cmd', Config.nCommitted (fun i => (rounds i).cfg) index = .ok (count, cmd) ∧
      Config.nCommitted (fun i => (later i).cfg) index = .ok (count', cmd') ∧ count ≤ count' ∧
      (0 < count → cmd = cmd') := by
  obtain ⟨cmd, hok, hcmd⟩ := h.nCommitted index
  obtain ⟨cmd', hok', hcmd'⟩ := h'.nCommitted index
  have hkept : ∀ i v, (rounds i).cfg.logs i index = some v → (later i).cfg.logs i index = some v :=
    fun i v hv => (hlater i i).keeps_log (h.reachable i) hv
  refine ⟨_, cmd, _, cmd', hok, hok', List.countP_mono_left fun i _ hi => ?_, fun hpos => ?_⟩
  · obtain ⟨v, hv⟩ := Option.isSome_iff_exists.mp hi
    rw [hkept i v hv]
    rfl
  · obtain ⟨i, -, hi⟩ := List.countP_pos_iff.mp hpos
    obtain ⟨v, hv⟩ := Option.isSome_iff_exists.mp hi
    rw [← hcmd i v hv, ← hcmd' i v (hkept i v hv)]

/-- First only server 0 is counted, later server 2 as well. -/
theorem nCommitted_stable_received : ∃ t t' : Test 3 Nat, t.Reachable ∧ t.Steps t' ∧
    t.cfg.logs 2 1 = none ∧ t'.cfg.logs 2 1 = some (some 10) ∧
    ∃ count cmd count' cmd', Config.nCommitted (fun _ : Fin 3 => t.cfg) 1 = .ok (count, cmd) ∧
      Config.nCommitted (fun _ : Fin 3 => t'.cfg) 1 = .ok (count', cmd') ∧ count ≤ count' ∧ (0 < count → cmd = cmd') := by
  obtain ⟨t, ht, h⟩ := Run.exec_any step Safe (init 3 Nat) (appliedAgain.map .raft ++ [.receive 0 0])
    (fun t => decide (t.cfg.logs 2 1 = none) && (Run.exec step Safe t [.receive 2 0]).any fun (t' : Test 3 Nat) =>
      decide (t'.cfg.logs 2 1 = some (some 10))) (by decide +kernel)
  obtain ⟨hnone, h⟩ := Bool.and_eq_true_iff.mp h
  obtain ⟨t', ht', hsome⟩ := (Option.any_eq_true _ _).mp h
  have hreach : t.Reachable := Run.exec_steps ht
  have hsteps : t.Steps t' := Run.exec_steps ht'
  have hrounds : Rounds fun _ : Fin 3 => t := ⟨fun _ => hreach, fun _ _ _ => .refl⟩
  have hlater : Rounds fun _ : Fin 3 => t' := ⟨fun _ => hreach.steps hsteps, fun _ _ _ => .refl⟩
  exact ⟨t, t', hreach, hsteps, of_decide_eq_true hnone, of_decide_eq_true hsome,
    nCommitted_stable hrounds hlater (fun _ _ => hsteps) 1⟩

end Run

end Test

end DistributedLabs
