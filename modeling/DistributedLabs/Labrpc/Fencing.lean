import DistributedLabs.Labrpc.Calls

/-! Crash fencing. In every interleaving a call dispatches its handler at most once and is answered at most once; in a
    fair one it is answered, if its handler returns or its server is deleted. If it returns true, its handler ran to its
    end while its server was registered: `processReq` looks at the registration before it dispatches and again after the
    handler has returned, and a server that was deleted does not come back. -/

namespace DistributedLabs.Labrpc

open Run Network

variable {E N I R : Type} [DecidableEq E] [DecidableEq N] [DecidableEq I]

/-- The sections of the handler and its channel. -/
def Move.ofHandler : Move R → Bool
  | .handle | .effect | .handled _ | .drain => true
  | _ => false

namespace Execution

variable (x : Execution E N I R) {c n : Nat} {call : Call E N I R} {m : Move R}

/-! ### Registration -/

/-- What the testers guarantee: a server that was deleted or replaced is not registered again. -/
def NeverAgain : Prop :=
  ∀ t servername server, x.act t = some (.addServer servername server) →
    ∀ name t₁ t₂, t₁ ≤ t₂ → t₂ ≤ t → x.Registered name server t₁ → x.Registered name server t₂

variable {x}

theorem NeverAgain.between (hnever : x.NeverAgain) {servername : N} {server : I} {t₁ t t₂ : Nat} (h₁ : t₁ ≤ t)
    (h₂ : t ≤ t₂) (hserver₁ : x.Registered servername server t₁) (hserver₂ : x.Registered servername server t₂) :
    x.Registered servername server t := by
  by_contra hgone
  obtain ⟨k, hk, -, a, hact, hnot, hserver⟩ :=
    x.becomes (Q := fun rn => rn.servers servername = some server) h₂ hgone hserver₂
  rcases step_servers (x.moves k a hact) hserver with h | rfl
  · exact hnot h
  · exact hgone (hnever k _ _ hact servername t₁ t h₁ hk hserver₁)

/-! ### Calls that return true -/

variable (x) in
/-- The handler of a call was dispatched to `server` at the first time and had run to its end, once, at the second, and
    the server was registered all the while. -/
structure Fenced (c : Nat) (servername : N) (server : I) (dispatched finished : Nat) : Prop where
  dispatch : x.act dispatched = some (.on c .dispatch) ∧ ∃ call info, (x.state dispatched).calls[c]? = some call ∧
    call.stage = .admitted info ∧ info.servername = servername ∧ info.server = server
  began : ∃! t, x.act t = some (.on c .handle)
  ended : ∃ reply, x.act finished = some (.on c (.handled reply))
  ended_once : ∀ t reply, x.act t = some (.on c (.handled reply)) → t = finished
  effects : ∀ t, x.act t = some (.on c .effect) → dispatched < t ∧ t < finished
  registered : ∀ t, dispatched ≤ t → t ≤ finished + 1 → x.Registered servername server t
  removed : ∀ t, x.Registered servername server t → ¬ x.Registered servername server (t + 1) → finished < t

/-- An effect of a handler lies between its start and its end. -/
theorem effect_between {e f : Nat} {reply : R} (he : x.act e = some (.on c .effect))
    (hf : x.act f = some (.on c (.handled reply))) : e < f ∧ ∃ k, k < e ∧ x.act k = some (.on c .handle) := by
  obtain ⟨call, call', hcall, -, hmoved⟩ := x.moves_on he
  cases hmoved with
  | effect hhandler =>
    refine ⟨?_, x.running_origin hcall hhandler⟩
    by_contra hle
    rcases Nat.eq_or_lt_of_le (Nat.le_of_not_lt hle) with rfl | hlt
    · cases he.symm.trans hf
    · -- After its end the handler does not run again.
      obtain ⟨call₀, call₁, -, hcall₁, hmoved⟩ := x.moves_on hf
      have hrank : call₁.handler.rank ≤ 1 := by
        cases hmoved
        exact Nat.le_refl 1
      obtain ⟨call', hcall', hrank'⟩ := x.call_keeps_le (fun _ _ _ _ htidy => htidy.handler_rank_le) hlt hcall₁ hrank
      cases hcall.symm.trans hcall'
      simp [hhandler] at hrank'

/-- A handler that was started was dispatched before. -/
theorem dispatch_before {h d : Nat} (hh : x.act h = some (.on c .handle)) (hd : x.act d = some (.on c .dispatch)) :
    d < h := by
  obtain ⟨call, call', hcall, -, hmoved⟩ := x.moves_on hh
  cases hmoved with
  | handle hhandler =>
    obtain ⟨k, hk, hact⟩ := x.begun_origin hcall hhandler
    exact x.dispatch_once hact hd ▸ hk

theorem NeverAgain.fenced (hnever : x.NeverAgain) {rep : ReplyMsg R} (hcall : (x.state n).calls[c]? = some call)
    (hcaller : call.caller = .returned rep) (hok : rep.ok = true) :
    ∃ servername server dispatched finished, finished < n ∧ x.Fenced c servername server dispatched finished := by
  -- From the result of the call back to the second look at the registration, the end of the handler, its dispatch and
  -- the first look.
  obtain ⟨k₁, hk₁, call₁, hcall₁, hrep⟩ := x.returned_origin hcall hcaller hok
  obtain ⟨k₂, hk₂, call₂, hcall₂, hreplying⟩ := x.replyCh_origin hcall₁ hrep
  obtain ⟨k₃, hk₃, call₃, info, hcall₃, hwaited, hserver₃⟩ := x.replying_origin hcall₂ hreplying hok
  obtain ⟨k₄, hk₄, call₄, hcall₄, hwaiting, hreturned⟩ := x.waited_origin hcall₃ hwaited
  obtain ⟨f, hf, reply, hfinished⟩ := x.handled_origin hcall₄ hreturned
  obtain ⟨d, hd, hdispatched, call₅, hcall₅, hadmitted⟩ := x.waiting_origin hcall₄ hwaiting
  obtain ⟨r, hr, hserver⟩ := x.admitted_origin hcall₅ hadmitted
  obtain ⟨call₆, _, hcall₆, -, hmoved⟩ := x.moves_on hfinished
  cases hmoved with
  | handled hrunning =>
    obtain ⟨h, hh, hbegan⟩ := x.running_origin hcall₆ hrunning
    refine ⟨info.servername, info.server, d, f, by omega, ?_⟩
    exact {
      dispatch := ⟨hdispatched, call₅, info, hcall₅, hadmitted, rfl, rfl⟩
      began := ⟨h, hbegan, fun t ht => x.handle_once ht hbegan⟩
      ended := ⟨reply, hfinished⟩
      ended_once := fun t reply' ht => x.handled_once ht hfinished
      effects := fun t ht => by
        obtain ⟨htf, k, hk, hhandle⟩ := effect_between ht hfinished
        exact ⟨Nat.lt_trans (dispatch_before hhandle hdispatched) hk, htf⟩
      registered := fun t hdt htf => hnever.between (by omega : r ≤ t) (by omega : t ≤ k₃) hserver hserver₃
      removed := fun t ht hgone => by
        by_contra hle
        exact hgone (hnever.between (Nat.le_succ t) (by omega : t + 1 ≤ k₃) ht hserver₃) }

/-! ### Calls that are answered -/

variable (x c) in
/-- The goroutines of `Call` and `processReq` are scheduled fairly, and so is a select that may receive the reply of the
    handler. A handler need not return. -/
def Fair : Prop := ∀ m : Move R, m.ofHandler = false → x.WeakFair (.on c m)

variable (x c) in
/-- If the call is dispatched, its handler returns or the server does not stay registered. -/
def Resolved : Prop :=
  ∀ d call info, x.act d = some (.on c .dispatch) → (x.state d).calls[c]? = some call → call.stage = .admitted info →
    (∃ t reply, x.act t = some (.on c (.handled reply))) ∨
      ∃ t, d ≤ t ∧ ¬ x.Registered info.servername info.server t

/-- A fair section that leads `processReq` on from some time on is taken, unless another one was. -/
theorem leaves (hfair : x.WeakFair (.on c m)) (hcall : (x.state n).calls[c]? = some call) (j : Nat)
    (hgo : ∀ k call', j ≤ k → (x.state k).calls[c]? = some call' → call'.stage = call.stage →
      ∃ call'', Moved (x.state k) call' m call'' ∧ call''.stage ≠ call'.stage) :
    ∃ k call', (x.state k).calls[c]? = some call' ∧ call'.stage.rank < call.stage.rank := by
  have hkept : ∀ k, n ≤ k → ∃ call', (x.state k).calls[c]? = some call' ∧
      (call'.stage = call.stage ∨ call'.stage.rank < call.stage.rank) := by
    intro k hk
    refine x.call_keeps ?_ hk hcall (.inl rfl)
    rintro _ call₀ _ call₁ htidy (hsame | hlt) hmoved
    · exact hsame ▸ htidy.stage_moves hmoved
    · exact .inr (Nat.lt_of_le_of_lt (htidy.stage_rank_le hmoved) hlt)
  have hlead := hfair.leadsTo (n := n + j)
    (Q := fun rn => ∃ call', rn.calls[c]? = some call' ∧ call'.stage.rank < call.stage.rank) ?_ ?_
  · obtain ⟨k, -, hk⟩ := hlead
    exact ⟨k, hk⟩
  · intro k hk
    obtain ⟨call', hcall', hsame | hlt⟩ := hkept k (by omega)
    · obtain ⟨call'', hmoved, -⟩ := hgo k call' (by omega) hcall' hsame
      exact .inr (by simp [step_on_eq hcall' hmoved])
    · exact .inl ⟨call', hcall', hlt⟩
  · intro k hk hact
    obtain ⟨call₀, call₁, hcall₀, hcall₁, hmoved⟩ := x.moves_on hact
    have htidy := x.tidy hcall₀
    obtain ⟨call', hcall', hstage⟩ := hkept k (by omega)
    cases hcall₀.symm.trans hcall'
    refine ⟨call₁, hcall₁, ?_⟩
    rcases hstage with hsame | hlt
    · obtain ⟨call'', hmoved', hne⟩ := hgo k call₀ (by omega) hcall₀ hsame
      cases hmoved.move_eq.symm.trans hmoved'.move_eq
      exact hsame ▸ (htidy.stage_moves hmoved).resolve_left hne
    · exact Nat.lt_of_le_of_lt (htidy.stage_rank_le hmoved) hlt

section Answered
variable (hnever : x.NeverAgain) (hfair : x.Fair c) (hresolved : x.Resolved c)
include hfair hnever hresolved

/-- The loop of `processReq` ends. -/
theorem waiting_ends (hcall : (x.state n).calls[c]? = some call) {info : EndnameInfo N I}
    (hstage : call.stage = .waiting info) :
    ∃ k call', (x.state k).calls[c]? = some call' ∧ call'.stage.rank < call.stage.rank := by
  obtain ⟨d, -, hdispatched, call₀, hcall₀, hadmitted⟩ := x.waiting_origin hcall hstage
  rcases hresolved d call₀ info hdispatched hcall₀ hadmitted with ⟨t, reply, hhandled⟩ | ⟨t, hdt, hgone⟩
  · obtain ⟨call₁, call₂, -, hcall₂, hmoved⟩ := x.moves_on hhandled
    have hreturned : call₂.handler = .returned ⟨true, some reply⟩ := by
      cases hmoved
      rfl
    refine leaves (hfair .receiveReply rfl) hcall (t + 1) fun k call' hk hcall' hsame => ?_
    rw [hstage] at hsame
    have hwaits : ∃ call, (x.state k).calls[c]? = some call ∧
        (3 ≤ call.stage.rank → call.handler = .returned ⟨true, some reply⟩) := by
      refine x.call_keeps ?_ hk hcall₂ fun _ => hreturned
      intro _ call₀ _ call₁ htidy hhandler hmoved hrank
      exact htidy.reply_waits hmoved (hhandler (Nat.le_trans hrank (htidy.stage_rank_le hmoved))) hrank
    obtain ⟨call₃, hcall₃, hhandler⟩ := hwaits
    cases hcall'.symm.trans hcall₃
    exact ⟨_, .receiveReply hsame (hhandler (by simp [hsame])), by simp [hsame]⟩
  · -- From then on the server is dead whenever the timer runs out.
    obtain ⟨r, hr, hserver⟩ := x.admitted_origin hcall₀ hadmitted
    refine leaves (hfair .timer rfl) hcall t fun k call' hk _ hsame => ?_
    rw [hstage] at hsame
    have hgone' : (x.state k).servers info.servername ≠ some info.server := fun hk' =>
      hgone (hnever.between (by omega : r ≤ t) hk hserver hk')
    exact ⟨_, .dead hsame (isServerDead_of_ne _ hgone'), by simp [hsame]⟩

/-- A request that was sent moves on until it is answered. -/
theorem moves_on_until_ended (hcall : (x.state n).calls[c]? = some call) (hsent : call.stage ≠ .unsent)
    (hended : call.stage ≠ .ended) :
    ∃ k call', (x.state k).calls[c]? = some call' ∧ call'.stage.rank < call.stage.rank := by
  cases hstage : call.stage with
  | unsent => exact absurd hstage hsent
  | ended => exact absurd hstage hended
  | waiting info => exact hstage ▸ waiting_ends hnever hfair hresolved hcall hstage
  | start =>
    rw [← hstage]
    refine leaves (hfair .readEndnameInfo rfl) hcall 0 fun k call' _ _ hsame => ?_
    rw [hstage] at hsame
    refine ⟨_, .readEndnameInfo hsame, ?_⟩
    rcases processReq_cases (x.state k) call'.endname with h | ⟨info, h, -⟩ <;> simp [h, hsame]
  | admitted info =>
    rw [← hstage]
    refine leaves (hfair .dispatch rfl) hcall 0 fun k call' _ _ hsame => ?_
    rw [hstage] at hsame
    exact ⟨_, .dispatch hsame, by simp [hsame]⟩
  | waited info reply =>
    rw [← hstage]
    refine leaves (hfair (.recheck false) rfl) hcall 0 fun k call' _ _ hsame => ?_
    rw [hstage] at hsame
    exact ⟨_, .recheck hsame, by simp [hsame]⟩
  | replying rep =>
    rw [← hstage]
    refine leaves (hfair .reply rfl) hcall 0 fun k call' _ _ hsame => ?_
    rw [hstage] at hsame
    exact ⟨_, .reply hsame, by simp [hsame]⟩

theorem ends (hcall : (x.state n).calls[c]? = some call) (hsent : call.stage ≠ .unsent) :
    ∃ k call', (x.state k).calls[c]? = some call' ∧ call'.stage = .ended := by
  induction hrank : call.stage.rank using Nat.strongRecOn generalizing n call with
  | ind rank ih =>
    by_cases hended : call.stage = .ended
    · exact ⟨n, call, hcall, hended⟩
    · obtain ⟨k, call', hcall', hlt⟩ := moves_on_until_ended hnever hfair hresolved hcall hsent hended
      refine ih call'.stage.rank (hrank ▸ hlt) hcall' (fun hunsent => ?_) rfl
      rw [hunsent] at hlt
      cases hstage : call.stage <;> simp [hstage] at hlt

end Answered

theorem stopped {k : Nat} (hnk : n ≤ k) (h : (x.state n).listening = false) :
    (x.state k).listening = false ∧ (x.state k).done = true := by
  have hdone : ∀ i, (x.state i).listening = false → (x.state i).done = true := by
    intro i
    refine (x.steps (Nat.zero_le i)).keeps (I := fun rn => rn.listening = false → rn.done = true) ?_ ?_
    · exact fun rn rn' a hended _ hstep => (step_listening hstep hended).1
    · rw [x.start]
      intro h
      cases h
  have hkept := (x.steps hnk).keeps
    (I := fun rn => (rn.listening = false → rn.done = true) ∧ rn.listening = false) ?_ ⟨hdone n, h⟩
  · exact ⟨hkept.2, hkept.1 hkept.2⟩
  · rintro rn rn' a ⟨hended, hlistening⟩ - hstep
    exact ⟨(step_listening hstep hended).1, (step_listening hstep hended).2 hlistening⟩

theorem sent_or_done (hfair : x.Fair c) (hcall : (x.state n).calls[c]? = some call) :
    (∃ t, x.act t = some (.on c .done)) ∨
      ∃ k call', (x.state k).calls[c]? = some call' ∧ call'.stage ≠ .unsent := by
  by_contra hneither
  obtain ⟨hdone, hunsent⟩ := not_or.mp hneither
  have hsend : ∀ k, x.act k ≠ some (.on c .send) := by
    intro k hact
    obtain ⟨call₀, call₁, -, hcall₁, hmoved⟩ := x.moves_on hact
    refine hunsent ⟨k + 1, call₁, hcall₁, ?_⟩
    cases hmoved
    simp
  have hsending : ∀ k, n ≤ k → ∃ call', (x.state k).calls[c]? = some call' ∧ call'.caller = .sending := by
    intro k hk
    obtain ⟨call', hcall', -⟩ := x.call_keeps (Q := fun _ => True) (fun _ _ _ _ _ _ _ => trivial) hk hcall trivial
    refine ⟨call', hcall', ?_⟩
    by_contra hne
    obtain ⟨i, -, m, call₀, call₁, hact, -, hnot, hmoved, hQ⟩ :=
      x.call_origin (Q := fun call => call.caller ≠ .sending) (fun _ h => h rfl) hcall' hne
    cases hmoved with
    | send => exact hsend i hact
    | done => exact hdone ⟨i, hact⟩
    | receive hcaller => cases hcaller.symm.trans (not_not.mp hnot)
    | _ => exact hnot hQ
  by_cases hstop : ∃ k, n ≤ k ∧ (x.state k).listening = false
  · obtain ⟨k, hk, hstop⟩ := hstop
    obtain ⟨i, -, hact⟩ := hfair .done rfl k fun i hi => by
      obtain ⟨call', hcall', hcaller⟩ := hsending i (Nat.le_trans hk hi)
      simp [step_on_eq hcall' (.done hcaller (stopped hi hstop).2)]
    exact hdone ⟨i, hact⟩
  · obtain ⟨i, -, hact⟩ := hfair .send rfl n fun i hi => by
      obtain ⟨call', hcall', hcaller⟩ := hsending i hi
      have hlistening : (x.state i).listening = true := by
        by_contra hnot
        exact hstop ⟨i, hi, Bool.eq_false_iff.mpr hnot⟩
      simp [step_on_eq hcall' (.send hcaller hlistening)]
    exact hsend i hact

/-- `Call` receives the answer. -/
theorem returns (hfair : x.Fair c) (hcall : (x.state n).calls[c]? = some call) (hended : call.stage = .ended) :
    ∃ k call' rep, (x.state k).calls[c]? = some call' ∧ call'.caller = .returned rep := by
  have hlead := (hfair .receive rfl).leadsTo (n := n)
    (Q := fun rn => ∃ call' rep, rn.calls[c]? = some call' ∧ call'.caller = .returned rep) ?_ ?_
  · obtain ⟨k, -, hk⟩ := hlead
    exact ⟨k, hk⟩
  · intro k hk
    have hrank₀ : call.stage.rank ≤ 0 := by simp [hended]
    obtain ⟨call', hcall', hrank⟩ := x.call_keeps_le (fun _ _ _ _ htidy => htidy.stage_rank_le) hk hcall hrank₀
    have htidy := x.tidy hcall'
    have hended' : call'.stage = .ended := by
      cases hstage : call'.stage <;> simp [hstage] at hrank
      rfl
    obtain ⟨rep, reps, hch⟩ := List.exists_cons_of_ne_nil (htidy.replied hended')
    cases hcaller : call'.caller with
    | sending => cases (htidy.unsent hcaller).symm.trans hended'
    | waiting => exact .inr (by simp [step_on_eq hcall' (.receive hcaller hch)])
    | returned rep' => exact .inl ⟨call', rep', hcall', hcaller⟩
  · intro k _ hact
    obtain ⟨call₀, call₁, -, hcall₁, hmoved⟩ := x.moves_on hact
    cases hmoved
    exact ⟨_, _, hcall₁, rfl⟩

end Execution

/-- In every interleaving in which no server comes back: a call dispatches its handler at most once, the handler starts
    at most once, and at most one answer is sent. If the goroutines are scheduled fairly, and the handler returns or the
    server is deleted in case the call is dispatched, the call returns and is answered exactly once, unless the network
    was cleaned up before it could send its request. A call that returns true is fenced. -/
theorem crash_fencing (x : Execution E N I R) (hnever : x.NeverAgain) (c : Nat) :
    (∀ t t', x.act t = some (.on c .dispatch) → x.act t' = some (.on c .dispatch) → t = t') ∧
    (∀ t t', x.act t = some (.on c .handle) → x.act t' = some (.on c .handle) → t = t') ∧
    (∀ t t', x.act t = some (.on c .reply) → x.act t' = some (.on c .reply) → t = t') ∧
    (x.Fair c → x.Resolved c → ∀ t call, (x.state t).calls[c]? = some call →
      ((∃ t, x.act t = some (.on c .done)) ∨ ∃! t, x.act t = some (.on c .reply)) ∧
        ∃ t call rep, (x.state t).calls[c]? = some call ∧ call.caller = .returned rep) ∧
    ∀ t call rep, (x.state t).calls[c]? = some call → call.caller = .returned rep → rep.ok = true →
      ∃ servername server dispatched finished, finished < t ∧ x.Fenced c servername server dispatched finished := by
  refine ⟨fun t t' => x.dispatch_once, fun t t' => x.handle_once, fun t t' => x.reply_once, ?_, ?_⟩
  · intro hfair hresolved t call hcall
    rcases x.sent_or_done hfair hcall with ⟨i, hdone⟩ | ⟨k, call', hcall', hsent⟩
    · obtain ⟨call₀, call₁, -, hcall₁, hmoved⟩ := x.moves_on hdone
      cases hmoved
      exact ⟨.inl ⟨i, hdone⟩, i + 1, _, _, hcall₁, rfl⟩
    · obtain ⟨i, call₁, hcall₁, hended⟩ := Execution.ends hnever hfair hresolved hcall' hsent
      obtain ⟨r, -, hreply⟩ := x.ended_origin hcall₁ hended
      exact ⟨.inr ⟨r, hreply, fun r' h => x.reply_once h hreply⟩, Execution.returns hfair hcall₁ hended⟩
  · intro t call rep hcall hcaller hok
    exact hnever.fenced hcall hcaller hok

/-! ### A run -/

/-- A call on a reliable network whose server is deleted after it has returned. -/
def fencedCall : List (Action Nat Nat Nat Nat) :=
  [.makeEnd 0, .addServer 7 1, .connect 0 7, .enable 0 true, .call 0, .on 0 .send, .on 0 .readEndnameInfo,
    .on 0 .dispatch, .on 0 .handle, .on 0 .timer, .on 0 .effect, .on 0 (.handled 42), .on 0 .receiveReply,
    .on 0 (.recheck true), .on 0 .reply, .on 0 .receive, .deleteServer 7]

theorem fencedCall_possible : Possible Network.step makeNetwork fencedCall = true := by decide

def fencedExecution : Execution Nat Nat Nat Nat where
  toBehavior := .ofList makeNetwork fencedCall fencedCall_possible
  start := rfl

theorem fencedExecution_neverAgain : fencedExecution.NeverAgain := by
  intro t servername server hact name t₁ t₂ h₁₂ h₂ hserver
  rcases t with _ | _ | t
  · cases hact
  · -- Nothing is registered before.
    have hnone : (none : Option Nat) = some server := by
      rcases t₁ with _ | _ | t₁
      · exact hserver
      · exact hserver
      · omega
    cases hnone
  · have hmem : Action.addServer servername server ∈ fencedCall.drop 2 := by
      refine List.mem_of_getElem? (i := t) ?_
      rw [List.getElem?_drop, Nat.add_comm]
      exact hact
    simp [fencedCall] at hmem

theorem fencedExecution_fair : fencedExecution.Fair 0 := by
  intro m _
  refine Behavior.weakFair_of_impossible (N := 17) fun n hn => ?_
  have hlast : fencedExecution.state n = fencedExecution.state 17 := after_of_length_le fencedCall_possible hn
  rw [hlast]
  cases m <;> rfl

theorem crash_fencing_deleted : (∃! t, fencedExecution.act t = some (.on 0 .reply)) ∧
    ∃ servername server dispatched finished, finished < 16 ∧
      fencedExecution.Fenced 0 servername server dispatched finished := by
  obtain ⟨-, -, -, hanswered, htrue⟩ := crash_fencing fencedExecution fencedExecution_neverAgain 0
  have hresolved : fencedExecution.Resolved 0 := fun _ _ _ _ _ _ => .inl ⟨11, 42, rfl⟩
  refine ⟨?_, htrue 16 _ ⟨true, some 42⟩ rfl rfl rfl⟩
  obtain ⟨⟨t, hdone⟩ | hreply, -⟩ := hanswered fencedExecution_fair hresolved 16 _ rfl
  · have hmem : Action.on 0 .done ∈ fencedCall := List.mem_of_getElem? hdone
    simp [fencedCall] at hmem
  · exact hreply

end DistributedLabs.Labrpc
