import DistributedLabs.Lib.Behavior
import DistributedLabs.Lib.Table
import Mathlib.Logic.Function.Basic

/-! The simulated network (`labrpc/labrpc.go`). Each call of `ClientEnd.Call` comes with the goroutines that the network
    starts for it: `processReq` and, in it, the one that runs the handler. A step is one section of one goroutine: a
    section under the lock of the network, a send or a receive on a channel, a choice of a select. A goroutine may wait
    before any of its steps for any time, so that sleeps, long delays and long reordering add nothing. A handler is any
    code that has effects and may return; a request names a method that the server has (for another one `log.Fatalf`
    ends the program). -/

namespace DistributedLabs.Labrpc

open Run

/-- `replyMsg`; the bytes of a reply may be nil. -/
structure ReplyMsg (R : Type) where
  ok : Bool
  reply : Option R
  deriving DecidableEq, Repr

/-- `replyMsg{false, nil}`. -/
def ReplyMsg.failed {R : Type} : ReplyMsg R := ⟨false, none⟩

/-- What `processReq` keeps of the results of `readEndnameInfo`. -/
structure EndnameInfo (N I : Type) where
  servername : N
  server : I
  reliable : Bool
  deriving DecidableEq, Repr

/-- `ClientEnd.Call`: before its request is sent, before the reply, and after. It returns `rep.ok`. -/
inductive Caller (R : Type) where
  | sending
  | waiting
  | returned (rep : ReplyMsg R)
  deriving DecidableEq, Repr

/-- `processReq`: not started; before `readEndnameInfo`; before the request is dropped or dispatched; in the loop that
    waits for the handler; behind it, with the reply if there is one (`replyOK`); before the send on `replyCh`, which a
    timer may do in its place; and at its end. -/
inductive Stage (N I R : Type) where
  | unsent
  | start
  | admitted (info : EndnameInfo N I)
  | waiting (info : EndnameInfo N I)
  | waited (info : EndnameInfo N I) (reply : Option (ReplyMsg R))
  | replying (rep : ReplyMsg R)
  | ended
  deriving DecidableEq, Repr

/-- The goroutine that calls `dispatch`: not started, started, in the handler, before the send on `ech`, and at its
    end. -/
inductive Handler (R : Type) where
  | absent
  | begun
  | running
  | returned (rep : ReplyMsg R)
  | ended
  deriving DecidableEq, Repr

/-- `replyCh` holds what was sent to it, of which `Call` receives the first. -/
structure Call (E N I R : Type) where
  endname : E
  caller : Caller R
  stage : Stage N I R
  handler : Handler R
  draining : Bool
  replyCh : List (ReplyMsg R)

def Call.new {E N I R : Type} (endname : E) : Call E N I R := ⟨endname, .sending, .unsent, .absent, false, []⟩

/-- `listening`: the goroutine of `MakeNetwork` that receives from `endCh` has not returned. -/
structure Network (E N I R : Type) where
  reliable : Bool
  ends : E → Bool
  enabled : E → Bool
  servers : N → Option I
  connections : E → Option N
  done : Bool
  listening : Bool
  calls : List (Call E N I R)

/-- The sections of the goroutines of one call. -/
inductive Move (R : Type) where
  -- `ClientEnd.Call`
  | send
  | done
  | receive
  -- `processReq`
  | readEndnameInfo
  | dropRequest
  | dispatch
  | receiveReply
  | timer
  | recheck (drop : Bool)
  | reply
  -- the goroutines of the handler
  | handle
  | effect
  | handled (reply : R)
  | drain
  deriving DecidableEq, Repr

inductive Action (E N I R : Type) where
  | makeEnd (endname : E)
  | connect (endname : E) (servername : N)
  | enable (endname : E) (enabled : Bool)
  | addServer (servername : N) (rs : I)
  | deleteServer (servername : N)
  | reliable (yes : Bool)
  | cleanup
  | stopListening
  | call (endname : E)
  | on (c : Nat) (m : Move R)
  deriving DecidableEq, Repr

/-! ### The goroutines of a call -/

namespace Network

variable {E N I R : Type}

/-- `MakeNetwork`. -/
def makeNetwork : Network E N I R where
  reliable := true
  ends _ := false
  enabled _ := false
  servers _ := none
  connections _ := none
  done := false
  listening := true
  calls := []

def readEndnameInfo (rn : Network E N I R) (endname : E) : Bool × Option N × Option I × Bool :=
  let servername := rn.connections endname
  (rn.enabled endname, servername, servername.bind rn.servers, rn.reliable)

/-- The first section of `processReq`; a request that it does not let in is answered by a timer. -/
def processReq (rn : Network E N I R) (endname : E) : Stage N I R :=
  match rn.readEndnameInfo endname with
  | (true, some servername, some server, reliable) => .admitted ⟨servername, server, reliable⟩
  | _ => .replying .failed

theorem processReq_cases (rn : Network E N I R) (endname : E) :
    rn.processReq endname = .replying .failed ∨
      ∃ info : EndnameInfo N I, rn.processReq endname = .admitted info ∧
        rn.servers info.servername = some info.server := by
  unfold processReq
  split
  · rename_i servername server reliable hread
    simp only [readEndnameInfo, Prod.mk.injEq] at hread
    obtain ⟨-, hname, hserver, -⟩ := hread
    rw [hname] at hserver
    exact .inr ⟨_, rfl, hserver⟩
  · exact .inl rfl

variable [DecidableEq I]

def isServerDead (rn : Network E N I R) (endname : E) (servername : N) (server : I) : Bool :=
  rn.enabled endname == false || rn.servers servername != some server

/-- The answer of `processReq` after its loop. The reply is dropped if `drop` and the network is not reliable. -/
def answer (rn : Network E N I R) (endname : E) (info : EndnameInfo N I) (drop : Bool) :
    Option (ReplyMsg R) → ReplyMsg R
  | none => .failed
  | some reply =>
    if rn.isServerDead endname info.servername info.server then .failed
    else if !info.reliable && drop then .failed
    else reply

theorem isServerDead_of_ne {rn : Network E N I R} (endname : E) {servername : N} {server : I}
    (h : rn.servers servername ≠ some server) : rn.isServerDead endname servername server = true := by
  simp [isServerDead, h]

/-- A reply other than the failure comes from the handler, and its server is registered. -/
theorem answer_ok {rn : Network E N I R} {endname : E} {info : EndnameInfo N I} {drop : Bool}
    {reply : Option (ReplyMsg R)} (h : (rn.answer endname info drop reply).ok = true) :
    reply = some (rn.answer endname info drop reply) ∧ rn.servers info.servername = some info.server := by
  cases reply with
  | none => cases h
  | some reply =>
    simp only [answer] at h ⊢
    split at h
    · cases h
    · rename_i hdead
      split at h
      · cases h
      · rename_i hdrop
        rw [if_neg hdead, if_neg hdrop]
        simp only [isServerDead, Bool.or_eq_true, beq_iff_eq, bne_iff_ne, not_or, not_not] at hdead
        exact ⟨rfl, hdead.2⟩

/-- What a section does to its call; `none` where the goroutine is not at that section or has to wait. -/
def move (rn : Network E N I R) (call : Call E N I R) : Move R → Option (Call E N I R)
  | .send =>
    match call.caller with
    | .sending => if rn.listening then some { call with caller := .waiting, stage := .start } else none
    | _ => none
  | .done =>
    match call.caller with
    | .sending => if rn.done then some { call with caller := .returned .failed } else none
    | _ => none
  | .receive =>
    match call.caller, call.replyCh with
    | .waiting, rep :: _ => some { call with caller := .returned rep }
    | _, _ => none
  | .readEndnameInfo =>
    match call.stage with
    | .start => some { call with stage := rn.processReq call.endname }
    | _ => none
  | .dropRequest =>
    match call.stage with
    | .admitted info => if info.reliable then none else some { call with stage := .replying .failed }
    | _ => none
  | .dispatch =>
    match call.stage with
    | .admitted info => some { call with stage := .waiting info, handler := .begun }
    | _ => none
  | .receiveReply =>
    match call.stage, call.handler with
    | .waiting info, .returned rep => some { call with stage := .waited info (some rep), handler := .ended }
    | _, _ => none
  -- The timer may run out at any moment; `isServerDead` follows at once, since a wait before the timer is chosen is as
  -- good as one behind it.
  | .timer =>
    match call.stage with
    | .waiting info =>
      if rn.isServerDead call.endname info.servername info.server then
        some { call with stage := .waited info none, draining := true }
      else some call
    | _ => none
  | .recheck drop =>
    match call.stage with
    | .waited info reply => some { call with stage := .replying (rn.answer call.endname info drop reply) }
    | _ => none
  | .reply =>
    match call.stage with
    | .replying rep => some { call with stage := .ended, replyCh := call.replyCh ++ [rep] }
    | _ => none
  | .handle =>
    match call.handler with
    | .begun => some { call with handler := .running }
    | _ => none
  | .effect =>
    match call.handler with
    | .running => some call
    | _ => none
  | .handled reply =>
    match call.handler with
    | .running => some { call with handler := .returned ⟨true, some reply⟩ }
    | _ => none
  | .drain =>
    match call.draining, call.handler with
    | true, .returned _ => some { call with handler := .ended, draining := false }
    | _, _ => none

/-- What a section can do. -/
inductive Moved (rn : Network E N I R) (call : Call E N I R) : Move R → Call E N I R → Prop where
  | send (hcaller : call.caller = .sending) (hlistening : rn.listening = true) :
      Moved rn call .send { call with caller := .waiting, stage := .start }
  | done (hcaller : call.caller = .sending) (hdone : rn.done = true) :
      Moved rn call .done { call with caller := .returned .failed }
  | receive {rep : ReplyMsg R} {reps : List (ReplyMsg R)} (hcaller : call.caller = .waiting)
      (hch : call.replyCh = rep :: reps) : Moved rn call .receive { call with caller := .returned rep }
  | readEndnameInfo (hstage : call.stage = .start) :
      Moved rn call .readEndnameInfo { call with stage := rn.processReq call.endname }
  | dropRequest {info : EndnameInfo N I} (hstage : call.stage = .admitted info) (hreliable : info.reliable = false) :
      Moved rn call .dropRequest { call with stage := .replying .failed }
  | dispatch {info : EndnameInfo N I} (hstage : call.stage = .admitted info) :
      Moved rn call .dispatch { call with stage := .waiting info, handler := .begun }
  | receiveReply {info : EndnameInfo N I} {rep : ReplyMsg R} (hstage : call.stage = .waiting info)
      (hhandler : call.handler = .returned rep) :
      Moved rn call .receiveReply { call with stage := .waited info (some rep), handler := .ended }
  | dead {info : EndnameInfo N I} (hstage : call.stage = .waiting info)
      (hdead : rn.isServerDead call.endname info.servername info.server = true) :
      Moved rn call .timer { call with stage := .waited info none, draining := true }
  | alive {info : EndnameInfo N I} (hstage : call.stage = .waiting info)
      (hdead : rn.isServerDead call.endname info.servername info.server = false) : Moved rn call .timer call
  | recheck {info : EndnameInfo N I} {reply : Option (ReplyMsg R)} {drop : Bool}
      (hstage : call.stage = .waited info reply) :
      Moved rn call (.recheck drop) { call with stage := .replying (rn.answer call.endname info drop reply) }
  | reply {rep : ReplyMsg R} (hstage : call.stage = .replying rep) :
      Moved rn call .reply { call with stage := .ended, replyCh := call.replyCh ++ [rep] }
  | handle (hhandler : call.handler = .begun) : Moved rn call .handle { call with handler := .running }
  | effect (hhandler : call.handler = .running) : Moved rn call .effect call
  | handled {reply : R} (hhandler : call.handler = .running) :
      Moved rn call (.handled reply) { call with handler := .returned ⟨true, some reply⟩ }
  | drain {rep : ReplyMsg R} (hdraining : call.draining = true) (hhandler : call.handler = .returned rep) :
      Moved rn call .drain { call with handler := .ended, draining := false }

variable {rn rn' : Network E N I R} {call call' : Call E N I R} {m : Move R}

theorem move_inv (h : rn.move call m = some call') : Moved rn call m call' := by
  cases m <;> simp only [move] at h
  case effect =>
    split at h
    · cases h
      exact .effect ‹_›
    · cases h
  case timer =>
    split at h
    · split at h <;> cases h
      · exact .dead ‹_› ‹_›
      · exact .alive ‹_› (Bool.eq_false_iff.mpr ‹_›)
    · cases h
  case dropRequest =>
    split at h
    · split at h <;> cases h
      exact .dropRequest ‹_› (Bool.eq_false_iff.mpr ‹_›)
    · cases h
  case send =>
    split at h
    · split at h <;> cases h
      exact .send ‹_› ‹_›
    · cases h
  case done =>
    split at h
    · split at h <;> cases h
      exact .done ‹_› ‹_›
    · cases h
  all_goals
    split at h <;> cases h
    constructor <;> assumption

/-- The sections that lead `processReq` on, each to the stage it comes to. -/
inductive Advances (rn : Network E N I R) (call : Call E N I R) : Move R → Stage N I R → Prop where
  | send (hcaller : call.caller = .sending) : Advances rn call .send .start
  | refuse (hstage : call.stage = .start) : Advances rn call .readEndnameInfo (.replying .failed)
  | letIn {info : EndnameInfo N I} (hstage : call.stage = .start)
      (hserver : rn.servers info.servername = some info.server) : Advances rn call .readEndnameInfo (.admitted info)
  | dropRequest {info : EndnameInfo N I} (hstage : call.stage = .admitted info) :
      Advances rn call .dropRequest (.replying .failed)
  | dispatch {info : EndnameInfo N I} (hstage : call.stage = .admitted info) :
      Advances rn call .dispatch (.waiting info)
  | receiveReply {info : EndnameInfo N I} {rep : ReplyMsg R} (hstage : call.stage = .waiting info)
      (hhandler : call.handler = .returned rep) : Advances rn call .receiveReply (.waited info (some rep))
  | dead {info : EndnameInfo N I} (hstage : call.stage = .waiting info) : Advances rn call .timer (.waited info none)
  | recheck {info : EndnameInfo N I} {reply : Option (ReplyMsg R)} {drop : Bool}
      (hstage : call.stage = .waited info reply) :
      Advances rn call (.recheck drop) (.replying (rn.answer call.endname info drop reply))
  | reply {rep : ReplyMsg R} (hstage : call.stage = .replying rep) : Advances rn call .reply .ended

theorem Moved.stage (h : Moved rn call m call') : call'.stage = call.stage ∨ Advances rn call m call'.stage := by
  cases h with
  | send hcaller => exact .inr (.send hcaller)
  | readEndnameInfo hstage =>
    rcases processReq_cases rn call.endname with h | ⟨info, h, hserver⟩
    · exact .inr (h ▸ .refuse hstage)
    · exact .inr (h ▸ .letIn hstage hserver)
  | dropRequest hstage => exact .inr (.dropRequest hstage)
  | dispatch hstage => exact .inr (.dispatch hstage)
  | receiveReply hstage hhandler => exact .inr (.receiveReply hstage hhandler)
  | dead hstage => exact .inr (.dead hstage)
  | recheck hstage => exact .inr (.recheck hstage)
  | reply hstage => exact .inr (.reply hstage)
  | done | receive | alive | handle | effect | handled | drain => exact .inl rfl

/-- The sections that lead the goroutine of the handler on. -/
inductive Handles (call : Call E N I R) : Move R → Handler R → Prop where
  | dispatch {info : EndnameInfo N I} (hstage : call.stage = .admitted info) : Handles call .dispatch .begun
  | handle (hhandler : call.handler = .begun) : Handles call .handle .running
  | handled {reply : R} (hhandler : call.handler = .running) :
      Handles call (.handled reply) (.returned ⟨true, some reply⟩)
  | receiveReply {info : EndnameInfo N I} {rep : ReplyMsg R} (hstage : call.stage = .waiting info)
      (hhandler : call.handler = .returned rep) : Handles call .receiveReply .ended
  | drain {rep : ReplyMsg R} (hdraining : call.draining = true) (hhandler : call.handler = .returned rep) :
      Handles call .drain .ended

theorem Moved.handler (h : Moved rn call m call') : call'.handler = call.handler ∨ Handles call m call'.handler := by
  cases h with
  | dispatch hstage => exact .inr (.dispatch hstage)
  | handle hhandler => exact .inr (.handle hhandler)
  | handled hhandler => exact .inr (.handled hhandler)
  | receiveReply hstage hhandler => exact .inr (.receiveReply hstage hhandler)
  | drain hdraining hhandler => exact .inr (.drain hdraining hhandler)
  | send | done | receive | readEndnameInfo | dropRequest | dead | alive | recheck | reply | effect => exact .inl rfl

theorem Moved.move_eq (h : Moved rn call m call') : rn.move call m = some call' := by
  cases h <;> simp [move, *]

/-! ### Steps -/

variable [DecidableEq E] [DecidableEq N]

/-- One step; `none` where it is not possible. `MakeEnd` with a name that is in use and a second
    `Cleanup` end the program. -/
def step (rn : Network E N I R) : Action E N I R → Option (Network E N I R)
  | .makeEnd endname =>
    if rn.ends endname then none
    else some { rn with
      ends := Function.update rn.ends endname true
      enabled := Function.update rn.enabled endname false
      connections := Function.update rn.connections endname none }
  | .connect endname servername =>
    some { rn with connections := Function.update rn.connections endname (some servername) }
  | .enable endname enabled => some { rn with enabled := Function.update rn.enabled endname enabled }
  | .addServer servername rs => some { rn with servers := Function.update rn.servers servername (some rs) }
  | .deleteServer servername => some { rn with servers := Function.update rn.servers servername none }
  | .reliable yes => some { rn with reliable := yes }
  | .cleanup => if rn.done then none else some { rn with done := true }
  | .stopListening => if rn.done then some { rn with listening := false } else none
  | .call endname => if rn.ends endname then some { rn with calls := rn.calls ++ [.new endname] } else none
  | .on c m =>
    match rn.calls[c]? with
    | none => none
    | some call => (rn.move call m).map fun call' => { rn with calls := rn.calls.set c call' }

variable {a : Action E N I R} {c : Nat}

theorem step_on (h : rn.step (.on c m) = some rn') :
    ∃ call call', rn.calls[c]? = some call ∧ Moved rn call m call' ∧ rn' = { rn with calls := rn.calls.set c call' } := by
  simp only [step] at h
  split at h
  · cases h
  · rename_i call hcall
    obtain ⟨call', hmove, rfl⟩ := Option.map_eq_some_iff.mp h
    exact ⟨call, call', hcall, move_inv hmove, rfl⟩

theorem step_on_eq (hcall : rn.calls[c]? = some call) (h : Moved rn call m call') :
    rn.step (.on c m) = some { rn with calls := rn.calls.set c call' } := by
  simp only [step, hcall, h.move_eq, Option.map_some]

/-- A step makes no call, a new one, or a move of one. -/
theorem step_calls (h : rn.step a = some rn') :
    rn'.calls = rn.calls ∨ (∃ endname, rn'.calls = rn.calls ++ [.new endname]) ∨
      ∃ c m call call', a = .on c m ∧ rn.calls[c]? = some call ∧ Moved rn call m call' ∧
        rn'.calls = rn.calls.set c call' := by
  cases a with
  | on c m =>
    obtain ⟨call, call', hcall, hmoved, rfl⟩ := step_on h
    exact .inr (.inr ⟨c, m, call, call', rfl, hcall, hmoved, rfl⟩)
  | call endname =>
    simp only [step] at h
    split at h <;> cases h
    exact .inr (.inl ⟨endname, rfl⟩)
  | connect | enable | addServer | deleteServer | reliable =>
    cases h
    exact .inl rfl
  | makeEnd | cleanup | stopListening =>
    simp only [step] at h
    split at h <;> cases h
    exact .inl rfl

/-- After a step a call is new or as before, or it has moved. -/
theorem step_call (h : rn.step a = some rn') (hcall' : rn'.calls[c]? = some call') :
    rn.calls[c]? = some call' ∨ (rn.calls[c]? = none ∧ ∃ endname, call' = .new endname) ∨
      ∃ m call, a = .on c m ∧ rn.calls[c]? = some call ∧ Moved rn call m call' := by
  rcases step_calls h with hcalls | ⟨endname, hcalls⟩ | ⟨c', m, call, moved, rfl, hcall, hmoved, hcalls⟩
  · exact .inl (hcalls ▸ hcall')
  · rw [hcalls] at hcall'
    rcases Table.getElem?_append_inv hcall' with hold | ⟨hlen, hnew⟩
    · exact .inl hold
    · exact .inr (.inl ⟨List.getElem?_eq_none_iff.mpr hlen, endname, List.mem_singleton.mp hnew⟩)
  · rw [hcalls] at hcall'
    rcases Table.getElem?_set_inv hcall' with ⟨rfl, rfl⟩ | ⟨-, hold⟩
    · exact .inr (.inr ⟨m, call, rfl, hcall, hmoved⟩)
    · exact .inl hold

/-- A call stays. -/
theorem step_call_stays (h : rn.step a = some rn') (hcall : rn.calls[c]? = some call) :
    ∃ call', rn'.calls[c]? = some call' := by
  have hlen : rn.calls.length ≤ rn'.calls.length := by
    rcases step_calls h with hcalls | ⟨endname, hcalls⟩ | ⟨c', m, call, moved, rfl, hcall, hmoved, hcalls⟩ <;>
      simp [hcalls]
  have hlt := Nat.lt_of_lt_of_le (List.getElem?_eq_some_iff.mp hcall).1 hlen
  exact ⟨_, List.getElem?_eq_getElem hlt⟩

/-- A server is registered by `AddServer` only. -/
theorem step_servers (h : rn.step a = some rn') {servername : N} {server : I}
    (hserver : rn'.servers servername = some server) :
    rn.servers servername = some server ∨ a = .addServer servername server := by
  cases a with
  | addServer name rs =>
    cases h
    change Function.update rn.servers name (some rs) servername = some server at hserver
    by_cases hname : servername = name
    · subst hname
      rw [Function.update_self] at hserver
      cases hserver
      exact .inr rfl
    · rw [Function.update_of_ne hname] at hserver
      exact .inl hserver
  | deleteServer name =>
    cases h
    change Function.update rn.servers name none servername = some server at hserver
    by_cases hname : servername = name
    · subst hname
      rw [Function.update_self] at hserver
      cases hserver
    · rw [Function.update_of_ne hname] at hserver
      exact .inl hserver
  | connect | enable | reliable =>
    cases h
    exact .inl hserver
  | makeEnd | cleanup | stopListening | call =>
    simp only [step] at h
    split at h <;> cases h
    exact .inl hserver
  | on c m =>
    obtain ⟨_, _, -, -, rfl⟩ := step_on h
    exact .inl hserver

/-- The goroutine of `MakeNetwork` ends after `Cleanup`, and for good. -/
theorem step_listening (h : rn.step a = some rn') (hended : rn.listening = false → rn.done = true) :
    (rn'.listening = false → rn'.done = true) ∧ (rn.listening = false → rn'.listening = false) := by
  cases a with
  | connect | enable | addServer | deleteServer | reliable =>
    cases h
    exact ⟨hended, id⟩
  | makeEnd | call =>
    simp only [step] at h
    split at h <;> cases h
    exact ⟨hended, id⟩
  | cleanup =>
    simp only [step] at h
    split at h <;> cases h
    exact ⟨fun _ => rfl, id⟩
  | stopListening =>
    simp only [step] at h
    split at h <;> cases h
    exact ⟨fun _ => ‹_›, fun _ => rfl⟩
  | on c m =>
    obtain ⟨_, _, -, -, rfl⟩ := step_on h
    exact ⟨hended, id⟩

end Network

end DistributedLabs.Labrpc
