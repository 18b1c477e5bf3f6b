import DistributedLabs.Labrpc.Network

/-! The life of a call. In every interleaving the goroutines of a call pass their sections in order, most of them once,
    and what a call has come to can be traced back to the section it comes from. -/

namespace DistributedLabs.Labrpc

open Run Network

variable {E N I R : Type}

/-! ### The order of the sections -/

/-- How far `processReq` is from its end. -/
@[simp]
def Stage.rank : Stage N I R → Nat
  | .unsent => 6
  | .start => 5
  | .admitted _ => 4
  | .waiting _ => 3
  | .waited _ _ => 2
  | .replying _ => 1
  | .ended => 0

@[simp]
def Handler.rank : Handler R → Nat
  | .absent => 4
  | .begun => 3
  | .running => 2
  | .returned _ => 1
  | .ended => 0

/-- How the goroutines of a call stand to each other. -/
structure Call.Tidy (call : Call E N I R) : Prop where
  unsent : call.caller = .sending → call.stage = .unsent
  absent : 4 ≤ call.stage.rank → call.handler = .absent
  replied : call.stage = .ended → call.replyCh ≠ []
  drains : call.draining = true → call.stage.rank ≤ 2

theorem Call.tidy_new (endname : E) : (Call.new endname : Call E N I R).Tidy where
  unsent _ := rfl
  absent _ := rfl
  replied h := by cases h
  drains h := by cases h

section Moves
variable [DecidableEq I] {rn : Network E N I R} {call call' : Call E N I R} {m : Move R}

/-- A section leads `processReq` forward or leaves it where it is. -/
theorem Call.Tidy.stage_moves (hcall : call.Tidy) (h : Moved rn call m call') :
    call'.stage = call.stage ∨ call'.stage.rank < call.stage.rank := by
  rcases h.stage with hsame | hadvances
  · exact .inl hsame
  · right
    generalize call'.stage = stage at hadvances
    cases hadvances with
    | send hcaller => simp [hcall.unsent hcaller]
    | refuse hstage | letIn hstage | dropRequest hstage | dispatch hstage | receiveReply hstage | dead hstage
    | recheck hstage | reply hstage => simp [hstage]

theorem Call.Tidy.stage_rank_le (hcall : call.Tidy) (h : Moved rn call m call') :
    call'.stage.rank ≤ call.stage.rank := by
  rcases hcall.stage_moves h with h | h
  · exact Nat.le_of_eq (congrArg Stage.rank h)
  · exact Nat.le_of_lt h

theorem Call.Tidy.handler_rank_le (hcall : call.Tidy) (h : Moved rn call m call') :
    call'.handler.rank ≤ call.handler.rank := by
  rcases h.handler with hsame | hhandles
  · exact Nat.le_of_eq (congrArg Handler.rank hsame)
  · generalize call'.handler = handler at hhandles
    cases hhandles with
    | dispatch hstage => simp [hcall.absent (by simp [hstage])]
    | handle hhandler | handled hhandler | receiveReply _ hhandler | drain _ hhandler => simp [hhandler]

theorem Call.Tidy.move (hcall : call.Tidy) (h : Moved rn call m call') : call'.Tidy where
  unsent hcaller := by
    cases h with
    | send | done | receive => cases hcaller
    | readEndnameInfo hstage | dropRequest hstage | dispatch hstage | receiveReply hstage | dead hstage | recheck hstage
    | reply hstage => cases (hcall.unsent hcaller).symm.trans hstage
    | alive | handle | effect | handled | drain => exact hcall.unsent hcaller
  absent hrank := by
    have habsent := hcall.absent (Nat.le_trans hrank (hcall.stage_rank_le h))
    rcases h.handler with hsame | hhandles
    · exact hsame.trans habsent
    · generalize call'.handler = handler at hhandles
      cases hhandles with
      | dispatch =>
        cases h
        simp at hrank
      | handle hhandler | handled hhandler | receiveReply _ hhandler | drain _ hhandler =>
        cases habsent.symm.trans hhandler
  replied hended := by
    cases h with
    | reply => exact List.append_ne_nil_of_right_ne_nil _ (List.cons_ne_nil _ _)
    | readEndnameInfo hstage =>
      rcases processReq_cases rn call.endname with h | ⟨info, h, -⟩ <;> cases h.symm.trans hended
    | send | dropRequest | dispatch | receiveReply | dead | recheck => cases hended
    | done | receive | alive | handle | effect | handled | drain => exact hcall.replied hended
  drains hdraining := by
    have hle := hcall.stage_rank_le h
    cases h with
    | dead => exact Nat.le_refl 2
    | drain => cases hdraining
    | send | done | receive | readEndnameInfo | dropRequest | dispatch | receiveReply | alive | recheck | reply | handle
    | effect | handled => exact Nat.le_trans hle (hcall.drains hdraining)

/-- A reply of the handler waits on `ech` as long as `processReq` waits for it. -/
theorem Call.Tidy.reply_waits (hcall : call.Tidy) (h : Moved rn call m call') {rep : ReplyMsg R}
    (hhandler : call.handler = .returned rep) (hrank : 3 ≤ call'.stage.rank) : call'.handler = .returned rep := by
  have hrank₀ := Nat.le_trans hrank (hcall.stage_rank_le h)
  rcases h.handler with hsame | hhandles
  · exact hsame.trans hhandler
  · generalize call'.handler = handler at hhandles
    cases hhandles with
    | dispatch hstage => cases (hcall.absent (by simp [hstage])).symm.trans hhandler
    | handle hbegun => cases hbegun.symm.trans hhandler
    | handled hrunning => cases hrunning.symm.trans hhandler
    | receiveReply =>
      cases h
      simp at hrank
    | drain hdraining => exact absurd (Nat.le_trans hrank₀ (hcall.drains hdraining)) (by decide)

end Moves

variable [DecidableEq E] [DecidableEq N] [DecidableEq I]

/-- The interleavings of the goroutines, from `MakeNetwork` on. -/
structure Execution (E N I R : Type) [DecidableEq E] [DecidableEq N] [DecidableEq I] extends
    Behavior (Network.step (E := E) (N := N) (I := I) (R := R)) where
  start : state 0 = makeNetwork

namespace Execution

variable (x : Execution E N I R) {c n : Nat} {call : Call E N I R} {m : Move R}

/-! ### Calls over time -/

/-- What a call has come to have, it got in one of its sections. -/
theorem call_origin {Q : Call E N I R → Prop} (hnew : ∀ endname, ¬ Q (.new endname))
    (hcall : (x.state n).calls[c]? = some call) (hQ : Q call) :
    ∃ k, k < n ∧ ∃ m call₀ call₁, x.act k = some (.on c m) ∧ (x.state k).calls[c]? = some call₀ ∧ ¬ Q call₀ ∧
      Moved (x.state k) call₀ m call₁ ∧ Q call₁ := by
  have hinit : ¬ ∃ call, (x.state 0).calls[c]? = some call ∧ Q call := by
    rintro ⟨call, hcall, -⟩
    rw [x.start] at hcall
    cases hcall
  obtain ⟨k, -, hk, a, hact, hnot, call₁, hcall₁, hQ₁⟩ :=
    x.becomes (Q := fun rn => ∃ call, rn.calls[c]? = some call ∧ Q call) (Nat.zero_le n) hinit ⟨call, hcall, hQ⟩
  rcases step_call (x.moves k a hact) hcall₁ with hsame | ⟨-, endname, rfl⟩ | ⟨m, call₀, rfl, hcall₀, hmoved⟩
  · exact absurd ⟨call₁, hsame, hQ₁⟩ hnot
  · exact absurd hQ₁ (hnew endname)
  · exact ⟨k, hk, m, call₀, call₁, hact, hcall₀, fun h => hnot ⟨call₀, hcall₀, h⟩, hmoved, hQ₁⟩

theorem tidy (hcall : (x.state n).calls[c]? = some call) : call.Tidy := by
  by_contra hnot
  obtain ⟨k, -, m, call₀, call₁, -, -, htidy, hmoved, hnot₁⟩ :=
    x.call_origin (Q := fun call => ¬ call.Tidy) (fun endname h => h (Call.tidy_new endname)) hcall hnot
  exact hnot₁ ((not_not.mp htidy).move hmoved)

/-- A call stays, and what its sections keep stays with it. -/
theorem call_keeps {Q : Call E N I R → Prop}
    (hmove : ∀ rn call m call', call.Tidy → Q call → Moved rn call m call' → Q call') {k : Nat} (hnk : n ≤ k)
    (hcall : (x.state n).calls[c]? = some call) (hQ : Q call) :
    ∃ call', (x.state k).calls[c]? = some call' ∧ Q call' := by
  have hkeep := (x.steps hnk).keeps (I := fun rn => ∃ call, rn.calls[c]? = some call ∧ call.Tidy ∧ Q call) ?_
    ⟨call, hcall, x.tidy hcall, hQ⟩
  · obtain ⟨call', hcall', -, hQ'⟩ := hkeep
    exact ⟨call', hcall', hQ'⟩
  · rintro rn rn' a ⟨call, hcall, htidy, hQ⟩ - hstep
    obtain ⟨call', hcall'⟩ := step_call_stays hstep hcall
    refine ⟨call', hcall', ?_⟩
    rcases step_call hstep hcall' with hsame | ⟨hnone, -⟩ | ⟨m, call₀, -, hcall₀, hmoved⟩
    · cases hcall.symm.trans hsame
      exact ⟨htidy, hQ⟩
    · cases hcall.symm.trans hnone
    · cases hcall.symm.trans hcall₀
      exact ⟨htidy.move hmoved, hmove rn call m call' htidy hQ hmoved⟩

/-- What no section raises stays below its bounds. -/
theorem call_keeps_le {μ : Call E N I R → Nat}
    (hμ : ∀ rn call m call', call.Tidy → Moved rn call m call' → μ call' ≤ μ call) {k bound : Nat} (hnk : n ≤ k)
    (hcall : (x.state n).calls[c]? = some call) (hle : μ call ≤ bound) :
    ∃ call', (x.state k).calls[c]? = some call' ∧ μ call' ≤ bound := by
  refine x.call_keeps (fun rn call m call' htidy hle hmoved => ?_) hnk hcall hle
  exact Nat.le_trans (hμ rn call m call' htidy hmoved) hle

theorem moves_on (hact : x.act n = some (.on c m)) :
    ∃ call call', (x.state n).calls[c]? = some call ∧ (x.state (n + 1)).calls[c]? = some call' ∧
      Moved (x.state n) call m call' := by
  obtain ⟨call, call', hcall, hmoved, hnext⟩ := step_on (x.moves n _ hact)
  rw [hnext]
  exact ⟨call, call', hcall, List.getElem?_set_self (List.getElem?_eq_some_iff.mp hcall).1, hmoved⟩

/-! ### Sections that are taken once -/

/-- Sections that lower what no section raises are taken once. -/
theorem once {μ : Call E N I R → Nat} (hμ : ∀ rn call m call', call.Tidy → Moved rn call m call' → μ call' ≤ μ call)
    {p : Move R → Prop} (k : Nat)
    (hp : ∀ (rn : Network E N I R) call m call', p m → Moved rn call m call' → μ call' ≤ k ∧ k < μ call) {t t' : Nat}
    {m' : Move R} (ht : x.act t = some (.on c m)) (hm : p m) (ht' : x.act t' = some (.on c m')) (hm' : p m') :
    t = t' := by
  refine x.at_most_once (fun a => ∃ m, p m ∧ a = .on c m) (fun rn => ∃ call, rn.calls[c]? = some call ∧ μ call ≤ k)
    ?_ ?_ ?_ ht ⟨m, hm, rfl⟩ ht' ⟨m', hm', rfl⟩
  · rintro i j hij ⟨call, hcall, hle⟩
    exact x.call_keeps_le hμ hij hcall hle
  · rintro i a hact ⟨m, hm, rfl⟩ ⟨call, hcall, hle⟩
    obtain ⟨call₀, call₁, hcall₀, -, hmoved⟩ := x.moves_on hact
    cases hcall.symm.trans hcall₀
    exact absurd hle (Nat.not_le_of_lt (hp _ _ _ _ hm hmoved).2)
  · rintro i a hact ⟨m, hm, rfl⟩
    obtain ⟨call₀, call₁, -, hcall₁, hmoved⟩ := x.moves_on hact
    exact ⟨call₁, hcall₁, (hp _ _ _ _ hm hmoved).1⟩

variable {t t' : Nat}

theorem dispatch_once (ht : x.act t = some (.on c .dispatch)) (ht' : x.act t' = some (.on c .dispatch)) : t = t' := by
  refine x.once (p := (· = .dispatch)) (fun _ _ _ _ htidy => htidy.stage_rank_le) 3 ?_ ht rfl ht' rfl
  rintro rn call m call' rfl hmoved
  cases hmoved with
  | dispatch hstage => simp [hstage]

theorem reply_once (ht : x.act t = some (.on c .reply)) (ht' : x.act t' = some (.on c .reply)) : t = t' := by
  refine x.once (p := (· = .reply)) (fun _ _ _ _ htidy => htidy.stage_rank_le) 0 ?_ ht rfl ht' rfl
  rintro rn call m call' rfl hmoved
  cases hmoved with
  | reply hstage => simp [hstage]

theorem handle_once (ht : x.act t = some (.on c .handle)) (ht' : x.act t' = some (.on c .handle)) : t = t' := by
  refine x.once (p := (· = .handle)) (fun _ _ _ _ htidy => htidy.handler_rank_le) 2 ?_ ht rfl ht' rfl
  rintro rn call m call' rfl hmoved
  cases hmoved with
  | handle hhandler => simp [hhandler]

theorem handled_once {reply reply' : R} (ht : x.act t = some (.on c (.handled reply)))
    (ht' : x.act t' = some (.on c (.handled reply'))) : t = t' := by
  refine x.once (p := fun m => ∃ reply, m = .handled reply) (fun _ _ _ _ htidy => htidy.handler_rank_le) 1 ?_
    ht ⟨reply, rfl⟩ ht' ⟨reply', rfl⟩
  rintro rn call m call' ⟨reply, rfl⟩ hmoved
  cases hmoved with
  | handled hhandler => simp [hhandler]

/-! ### Where a reply comes from -/

def Registered (servername : N) (server : I) (t : Nat) : Prop := (x.state t).servers servername = some server

section Origins
variable {info : EndnameInfo N I} {rep : ReplyMsg R} (hcall : (x.state n).calls[c]? = some call)
include hcall

theorem stage_origin (hstage : call.stage ≠ .unsent) :
    ∃ k, k < n ∧ ∃ m call₀, x.act k = some (.on c m) ∧ (x.state k).calls[c]? = some call₀ ∧
      Advances (x.state k) call₀ m call.stage := by
  obtain ⟨k, hk, m, call₀, call₁, hact, hcall₀, hnot, hmoved, hQ⟩ :=
    x.call_origin (Q := fun call' => call'.stage = call.stage) (fun _ h => hstage h.symm) hcall rfl
  rcases hmoved.stage with hsame | hadvances
  · exact absurd (hsame.symm.trans hQ) hnot
  · exact ⟨k, hk, m, call₀, hact, hcall₀, hQ ▸ hadvances⟩

theorem handler_origin (hhandler : call.handler ≠ .absent) :
    ∃ k, k < n ∧ ∃ m call₀, x.act k = some (.on c m) ∧ (x.state k).calls[c]? = some call₀ ∧
      Handles call₀ m call.handler := by
  obtain ⟨k, hk, m, call₀, call₁, hact, hcall₀, hnot, hmoved, hQ⟩ :=
    x.call_origin (Q := fun call' => call'.handler = call.handler) (fun _ h => hhandler h.symm) hcall rfl
  rcases hmoved.handler with hsame | hhandles
  · exact absurd (hsame.symm.trans hQ) hnot
  · exact ⟨k, hk, m, call₀, hact, hcall₀, hQ ▸ hhandles⟩

theorem admitted_origin (hstage : call.stage = .admitted info) :
    ∃ k, k < n ∧ x.Registered info.servername info.server k := by
  obtain ⟨k, hk, m, call₀, -, -, hadvances⟩ := x.stage_origin hcall (by simp [hstage])
  rw [hstage] at hadvances
  cases hadvances with
  | letIn _ hserver => exact ⟨k, hk, hserver⟩

theorem waiting_origin (hstage : call.stage = .waiting info) :
    ∃ k, k < n ∧ x.act k = some (.on c .dispatch) ∧
      ∃ call, (x.state k).calls[c]? = some call ∧ call.stage = .admitted info := by
  obtain ⟨k, hk, m, call₀, hact, hcall₀, hadvances⟩ := x.stage_origin hcall (by simp [hstage])
  rw [hstage] at hadvances
  cases hadvances with
  | dispatch hadmitted => exact ⟨k, hk, hact, call₀, hcall₀, hadmitted⟩

theorem waited_origin (hstage : call.stage = .waited info (some rep)) :
    ∃ k, k < n ∧ ∃ call, (x.state k).calls[c]? = some call ∧ call.stage = .waiting info ∧
      call.handler = .returned rep := by
  obtain ⟨k, hk, m, call₀, -, hcall₀, hadvances⟩ := x.stage_origin hcall (by simp [hstage])
  rw [hstage] at hadvances
  cases hadvances with
  | receiveReply hwaiting hhandler => exact ⟨k, hk, call₀, hcall₀, hwaiting, hhandler⟩

/-- A reply that is no failure was let through by the second look at the registration. -/
theorem replying_origin (hstage : call.stage = .replying rep) (hok : rep.ok = true) :
    ∃ k, k < n ∧ ∃ call info, (x.state k).calls[c]? = some call ∧ call.stage = .waited info (some rep) ∧
      x.Registered info.servername info.server k := by
  obtain ⟨k, hk, m, call₀, -, hcall₀, hadvances⟩ := x.stage_origin hcall (by simp [hstage])
  rw [hstage] at hadvances
  cases hadvances with
  | refuse | dropRequest => cases hok
  | recheck hwaited =>
    obtain ⟨hreply, hserver⟩ := answer_ok hok
    exact ⟨k, hk, call₀, _, hcall₀, hreply ▸ hwaited, hserver⟩

theorem ended_origin (hstage : call.stage = .ended) : ∃ k, k < n ∧ x.act k = some (.on c .reply) := by
  obtain ⟨k, hk, m, call₀, hact, -, hadvances⟩ := x.stage_origin hcall (by simp [hstage])
  rw [hstage] at hadvances
  cases hadvances with
  | reply => exact ⟨k, hk, hact⟩

theorem begun_origin (hhandler : call.handler = .begun) : ∃ k, k < n ∧ x.act k = some (.on c .dispatch) := by
  obtain ⟨k, hk, m, call₀, hact, -, hhandles⟩ := x.handler_origin hcall (by simp [hhandler])
  rw [hhandler] at hhandles
  cases hhandles with
  | dispatch => exact ⟨k, hk, hact⟩

theorem running_origin (hhandler : call.handler = .running) : ∃ k, k < n ∧ x.act k = some (.on c .handle) := by
  obtain ⟨k, hk, m, call₀, hact, -, hhandles⟩ := x.handler_origin hcall (by simp [hhandler])
  rw [hhandler] at hhandles
  cases hhandles with
  | handle => exact ⟨k, hk, hact⟩

theorem handled_origin (hhandler : call.handler = .returned rep) :
    ∃ k, k < n ∧ ∃ reply, x.act k = some (.on c (.handled reply)) := by
  obtain ⟨k, hk, m, call₀, hact, -, hhandles⟩ := x.handler_origin hcall (by simp [hhandler])
  rw [hhandler] at hhandles
  cases hhandles with
  | @handled reply => exact ⟨k, hk, reply, hact⟩

theorem replyCh_origin (hrep : rep ∈ call.replyCh) :
    ∃ k, k < n ∧ ∃ call, (x.state k).calls[c]? = some call ∧ call.stage = .replying rep := by
  obtain ⟨k, hk, m, call₀, call₁, -, hcall₀, hnot, hmoved, hQ⟩ :=
    x.call_origin (Q := fun call => rep ∈ call.replyCh) (fun _ h => by cases h) hcall hrep
  cases hmoved with
  | reply hstage =>
    rcases List.mem_append.mp hQ with h | h
    · exact absurd h hnot
    · cases List.mem_singleton.mp h
      exact ⟨k, hk, call₀, hcall₀, hstage⟩
  | _ => exact absurd hQ hnot

/-- A call that returns true received that reply. -/
theorem returned_origin (hcaller : call.caller = .returned rep) (hok : rep.ok = true) :
    ∃ k, k < n ∧ ∃ call, (x.state k).calls[c]? = some call ∧ rep ∈ call.replyCh := by
  obtain ⟨k, hk, m, call₀, call₁, -, hcall₀, hnot, hmoved, hQ⟩ :=
    x.call_origin (Q := fun call => call.caller = .returned rep) (fun _ h => by cases h) hcall hcaller
  cases hmoved with
  | receive _ hch =>
    cases hQ
    exact ⟨k, hk, call₀, hcall₀, hch ▸ List.mem_cons_self⟩
  | done =>
    cases hQ
    cases hok
  | send => cases hQ
  | _ => exact absurd hQ hnot

end Origins

end Execution

end DistributedLabs.Labrpc
