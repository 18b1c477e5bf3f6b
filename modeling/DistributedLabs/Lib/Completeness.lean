import DistributedLabs.Lib.Quorum
import DistributedLabs.Lib.ReplicatedLog

/-! Leader completeness for a replicated log whose terms are claimed by a majority of votes. What a majority has
    acknowledged of a book whose last entry is of the book's own term is a prefix of every later book: some voter
    of the later owner acknowledged it, and still held it when it voted, unless a book in between had lost it. -/

namespace ReplicatedLog

open Quorum

variable {S E : Type*} [DecidableEq S] [Fintype S] {tm : E → ℕ} {z : E} {s s' : State S E}

/-- A majority voted for `c` in its term. -/
def Won (s : State S E) (c : S) : Prop :=
  ∃ Q : Finset S, IsMajority Q ∧ ∀ p ∈ Q, ∃ v, (p, s.cur c, c, v) ∈ s.voted

/-- Between the terms `t` and `u` a book was started without the first `k` entries of the book of `t`. -/
def Lost (s : State S E) (t k u : ℕ) : Prop :=
  ∃ w, t < w ∧ w < u ∧ (∃ o, s.owner w = some o) ∧ ¬ (s.book t).take k <+: s.base w

/-! ### What a step carries over -/

/-- Books only grow, and a term keeps its owner and what its book was started with. -/
structure Carry (s s' : State S E) : Prop where
  book : ∀ t, s.book t <+: s'.book t
  owner : ∀ {t c}, s.owner t = some c → s'.owner t = some c ∧ s'.base t = s.base t

omit [DecidableEq S] [Fintype S] in
theorem Carry.take_book (h : Carry s s') {t k : ℕ} (hk : k ≤ (s.book t).length) :
    (s'.book t).take k = (s.book t).take k := by
  obtain ⟨rest, hrest⟩ := h.book t
  rw [← hrest, List.take_append_of_le_length hk]

omit [DecidableEq S] [Fintype S] in
theorem Lost.carry {t k u u' : ℕ} (h : Lost s t k u) (hc : Carry s s') (hk : k ≤ (s.book t).length) (hu : u ≤ u') :
    Lost s' t k u' := by
  obtain ⟨w, hlo, hhi, ⟨o, ho⟩, hno⟩ := h
  obtain ⟨ho', hbase⟩ := hc.owner ho
  refine ⟨w, hlo, Nat.lt_of_lt_of_le hhi hu, ⟨o, ho'⟩, ?_⟩
  rw [hc.take_book hk, hbase]
  exact hno

omit [Fintype S] in
theorem Step.carry {G : State S E → S → Prop} (hs : Step tm G s s') (h : Sound tm z s) : Carry s s' := by
  refine ⟨h.book_mono hs, fun {t d} ho => ?_⟩
  cases hs with
  | @claim c hpos hown =>
    have hne : t ≠ s.cur c := by
      rintro rfl
      rw [hown] at ho
      cases ho
    rw [State.claim_owner, State.claim_base, Function.update_of_ne hne, Function.update_of_ne hne]
    exact ⟨ho, rfl⟩
  | _ => exact ⟨ho, rfl⟩

/-! ### The invariant -/

/-- The owner of `u` was elected: each of its voters was no further than the book's start, and what that voter had
    acknowledged before it held when it voted, or it was lost on the way. -/
def Elected (tm : E → ℕ) (s : State S E) (u : ℕ) (c : S) : Prop :=
  ∃ Q : Finset S, IsMajority Q ∧ ∀ p ∈ Q, ∃ v, (p, u, c, v) ∈ s.voted ∧ UpToDate tm (s.base u) v ∧
    ∀ t m k, (p, t, m) ∈ s.acked → t < u → k ≤ m → (s.book t).take k <+: v ∨ Lost s t k u

/-- Records are of terms up to the current one. A server that stood and has seen no owner since still has the log
    it stood with; a voter's log was no further than the candidate's; what was acknowledged is in the log, or was
    lost in a later book; and every owner was elected. -/
structure Backed (tm : E → ℕ) (s : State S E) : Prop where
  stood : ∀ {c t l}, (c, t, l) ∈ s.stood → t ≤ s.cur c ∧ (s.cur c = t → s.owner t = none → s.log c = l)
  voted : ∀ {p t c v}, (p, t, c, v) ∈ s.voted → t ≤ s.cur p ∧ Grounded tm s.book v ∧
    ∃ l, (c, t, l) ∈ s.stood ∧ UpToDate tm l v
  acked : ∀ {p t m}, (p, t, m) ∈ s.acked → t ≤ s.cur p ∧ m ≤ (s.book t).length
  held : ∀ {p t m k}, (p, t, m) ∈ s.acked → k ≤ m →
    (s.book t).take k <+: s.log p ∨ Lost s t k (s.cur p + 1)
  ballots : ∀ {p u c v t m k}, (p, u, c, v) ∈ s.voted → (p, t, m) ∈ s.acked → t < u → k ≤ m →
    (s.book t).take k <+: v ∨ Lost s t k u ∨ ∃ o, s.owner u = some o
  elected : ∀ {u c}, s.owner u = some c → Elected tm s u c

omit [DecidableEq S] in
theorem backed_init : Backed tm (State.init S z) where
  stood h := h.elim
  voted h := h.elim
  acked h := h.elim
  held h := h.elim
  ballots h := h.elim
  elected h := by cases h

namespace Backed

omit [DecidableEq S] in
theorem elected_carry (h : Backed tm s) (hc : Carry s s') {u : ℕ} {c : S} (ho : s.owner u = some c)
    (hvoted : s.voted ⊆ s'.voted)
    (hacked : ∀ {p t m c v}, (p, u, c, v) ∈ s.voted → t < u → (p, t, m) ∈ s'.acked → (p, t, m) ∈ s.acked) :
    Elected tm s' u c := by
  obtain ⟨Q, hQ, hv⟩ := h.elected ho
  refine ⟨Q, hQ, fun p hp => ?_⟩
  obtain ⟨v, hpv, hup, hall⟩ := hv p hp
  refine ⟨v, hvoted hpv, by rwa [(hc.owner ho).2], fun t m k ha ht hk => ?_⟩
  have ha := hacked hpv ht ha
  have hlen : k ≤ (s.book t).length := Nat.le_trans hk (h.acked ha).2
  rw [hc.take_book hlen]
  exact (hall t m k ha ht hk).imp_right fun hl => hl.carry hc hlen (Nat.le_refl u)

omit [DecidableEq S] in
/-- A step that records nothing, and under which logs and terms only grow. -/
theorem quiet (h : Backed tm s) (hc : Carry s s') (hcur : ∀ p, s.cur p ≤ s'.cur p) (hlog : ∀ p, s.log p <+: s'.log p)
    (hvoted : s'.voted = s.voted) (hstood : s'.stood = s.stood) (hacked : s'.acked = s.acked)
    (hkept : ∀ c t l, (c, t, l) ∈ s.stood → s'.cur c = t → s'.owner t = none → s'.log c = l)
    (helected : ∀ u c, s'.owner u = some c → s.owner u = none → Elected tm s' u c) : Backed tm s' := by
  refine ⟨fun {c t l} hst => ?_, fun {p t c v} hv => ?_, fun {p t m} ha => ?_, fun {p t m k} ha hk => ?_,
    fun {p u c v t m k} hv ha ht hk => ?_, fun {u c} ho => ?_⟩
  · rw [hstood] at hst
    exact ⟨Nat.le_trans (h.stood hst).1 (hcur c), hkept c t l hst⟩
  · rw [hvoted] at hv
    obtain ⟨hle, hg, l, hst, hup⟩ := h.voted hv
    exact ⟨Nat.le_trans hle (hcur p), hg.mono hc.book, l, by rwa [hstood], hup⟩
  · rw [hacked] at ha
    exact ⟨Nat.le_trans (h.acked ha).1 (hcur p), Nat.le_trans (h.acked ha).2 (hc.book t).length_le⟩
  · rw [hacked] at ha
    have hlen : k ≤ (s.book t).length := Nat.le_trans hk (h.acked ha).2
    rw [hc.take_book hlen]
    rcases h.held ha hk with hp | hl
    · exact Or.inl (hp.trans (hlog p))
    · exact Or.inr (hl.carry hc hlen (Nat.succ_le_succ (hcur p)))
  · rw [hvoted] at hv
    rw [hacked] at ha
    have hlen : k ≤ (s.book t).length := Nat.le_trans hk (h.acked ha).2
    rw [hc.take_book hlen]
    rcases h.ballots hv ha ht hk with hp | hl | ⟨o, ho⟩
    · exact Or.inl hp
    · exact Or.inr (Or.inl (hl.carry hc hlen (Nat.le_refl u)))
    · exact Or.inr (Or.inr ⟨o, (hc.owner ho).1⟩)
  · cases hold : s.owner u with
    | none => exact helected u c ho hold
    | some d =>
      have hd := (hc.owner hold).1
      rw [ho] at hd
      cases hd
      exact h.elected_carry hc hold (by rw [hvoted]) fun _ _ ha => by rwa [hacked] at ha

theorem advance (h : Backed tm s) {p : S} {t : ℕ} (ht : s.cur p < t) : Backed tm (s.advance p t) := by
  refine h.quiet ⟨fun _ => List.prefix_rfl, fun ho => ⟨ho, rfl⟩⟩ (Sound.cur_le_advance s (Nat.le_of_lt ht))
    (fun _ => List.prefix_rfl) rfl rfl rfl (fun c u l hst hu ho => ?_) (fun u c ho hno => ?_)
  · obtain ⟨hle, hlog⟩ := h.stood hst
    by_cases hc : c = p
    · subst hc
      rw [State.advance_cur, Function.update_self] at hu
      omega
    · rw [State.advance_cur, Function.update_of_ne hc] at hu
      exact hlog hu ho
  · have ho : s.owner u = some c := ho
    rw [hno] at ho
    cases ho

theorem claim (h : Backed tm s) (hsound : Sound tm z s) {c : S} (hpos : 0 < s.cur c)
    (hown : s.owner (s.cur c) = none) (hwon : Won s c) : Backed tm (s.claim c) := by
  have hs : Step tm Won s (s.claim c) := .claim hpos hown hwon
  have hc : Carry s (s.claim c) := hs.carry hsound
  refine h.quiet hc (fun _ => Nat.le_refl _) (fun _ => List.prefix_rfl) rfl rfl rfl (fun d t l hst ht ho => ?_)
    (fun u d ho hno => ?_)
  · refine (h.stood hst).2 ht ?_
    cases hold : s.owner t with
    | none => rfl
    | some o =>
      rw [(hc.owner hold).1] at ho
      cases ho
  · -- The votes for the new owner are for the log it still has.
    have hu : u = s.cur c := by
      by_contra hne
      rw [State.claim_owner, Function.update_of_ne hne, hno] at ho
      cases ho
    subst hu
    rw [State.claim_owner, Function.update_self] at ho
    cases ho
    obtain ⟨Q, hQ, hv⟩ := hwon
    refine ⟨Q, hQ, fun p hp => ?_⟩
    obtain ⟨v, hpv⟩ := hv p hp
    obtain ⟨-, -, l, hst, hup⟩ := h.voted hpv
    have hbase : (s.claim c).base (s.cur c) = l := by
      rw [State.claim_base, Function.update_self]
      exact (h.stood hst).2 rfl hown
    refine ⟨v, hpv, by rwa [hbase], fun t m k ha ht hk => ?_⟩
    have hlen : k ≤ (s.book t).length := Nat.le_trans hk (h.acked ha).2
    rw [hc.take_book hlen]
    rcases h.ballots hpv ha ht hk with hp | hl | ⟨o, ho⟩
    · exact Or.inl hp
    · exact Or.inr (hl.carry hc hlen (Nat.le_refl _))
    · rw [hown] at ho
      cases ho

theorem append (h : Backed tm s) (hsound : Sound tm z s) {c : S} {e : E} (hown : s.owner (s.cur c) = some c)
    (he : tm e = s.cur c) : Backed tm (s.append c e) := by
  have hs : Step tm Won s (s.append c e) := .append hown he
  have hc : Carry s (s.append c e) := hs.carry hsound
  refine h.quiet hc (fun _ => Nat.le_refl _) (fun p => ?_) rfl rfl rfl (fun d t l hst ht ho => ?_) (fun u d ho hno => ?_)
  · by_cases hp : p = c
    · rw [hp, State.append_log, Function.update_self]
      exact List.prefix_append _ _
    · rw [State.append_log, Function.update_of_ne hp]
  · have hd : d ≠ c := by
      intro hd
      have ht : s.cur c = t := hd ▸ ht
      have ho : s.owner t = none := ho
      rw [ht, ho] at hown
      cases hown
    rw [State.append_log, Function.update_of_ne hd]
    exact (h.stood hst).2 ht ho
  · have ho : s.owner u = some d := ho
    rw [hno] at ho
    cases ho

omit [DecidableEq S] in
theorem stand (h : Backed tm s) (c : S) : Backed tm (s.stand c) := by
  refine ⟨fun {d t l} hst => ?_, fun {p t d v} hv => ?_, h.acked, h.held, h.ballots, h.elected⟩
  · rcases hst with hst | hst
    · cases hst
      exact ⟨Nat.le_refl _, fun _ _ => rfl⟩
    · exact h.stood hst
  · obtain ⟨hle, hg, l, hst, hup⟩ := h.voted hv
    exact ⟨hle, hg, l, Or.inr hst, hup⟩

omit [DecidableEq S] in
theorem vote (h : Backed tm s) (hsound : Sound tm z s) {p c : S} {l : List E} (hst : (c, s.cur p, l) ∈ s.stood)
    (hup : UpToDate tm l (s.log p)) : Backed tm (s.vote p c) := by
  refine ⟨h.stood, fun {q t d v} hv => ?_, h.acked, h.held, fun {q u d v t m k} hv ha ht hk => ?_, fun {u d} ho => ?_⟩
  · rcases hv with hv | hv
    · cases hv
      exact ⟨Nat.le_refl _, hsound.logs p, l, hst, hup⟩
    · exact h.voted hv
  · rcases hv with hv | hv
    · cases hv
      rcases h.held ha hk with hp | ⟨w, hlo, hhi, ⟨o, ho⟩, hno⟩
      · exact Or.inl hp
      · -- Lost in the book of this very term, or before.
        rcases Nat.lt_or_eq_of_le (Nat.le_of_lt_succ hhi) with hlt | rfl
        · exact Or.inr (Or.inl ⟨w, hlo, hlt, ⟨o, ho⟩, hno⟩)
        · exact Or.inr (Or.inr ⟨o, ho⟩)
    · exact h.ballots hv ha ht hk
  · have hc : Carry s (s.vote p c) := ⟨fun _ => List.prefix_rfl, fun ho => ⟨ho, rfl⟩⟩
    exact h.elected_carry hc ho (Set.subset_insert _ _) fun _ _ ha => ha

omit [DecidableEq S] [Fintype S] in
/-- What `p` held of the book of `t` it still holds after it took `P` over, or it is lost in the book of its term. -/
theorem held_accept {p o : S} {P l : List E} (hown : s.owner (s.cur p) = some o)
    (hbase : s.base (s.cur p) <+: P) (hbook : P <+: s.book (s.cur p)) (hl : Adopts P (s.log p) l) {t k : ℕ}
    (ht : t ≤ s.cur p) (hk : (s.book t).take k <+: s.log p) :
    (s.book t).take k <+: l ∨ Lost s t k (s.cur p + 1) := by
  rcases hl with ⟨-, rfl⟩ | ⟨hno, rfl⟩
  · exact Or.inl hk
  · rcases Nat.lt_or_eq_of_le ht with hlt | rfl
    · by_cases hb : (s.book t).take k <+: s.base (s.cur p)
      · exact Or.inl (hb.trans hbase)
      · exact Or.inr ⟨s.cur p, hlt, Nat.lt_succ_self _, ⟨o, hown⟩, hb⟩
    · rcases List.prefix_or_prefix_of_prefix (List.take_prefix k _) hbook with hp | hp
      · exact Or.inl hp
      · exact absurd (hp.trans hk) hno

theorem accept (h : Backed tm s) {p o : S} {P l : List E} (hown : s.owner (s.cur p) = some o)
    (hbase : s.base (s.cur p) <+: P) (hbook : P <+: s.book (s.cur p)) (hl : Adopts P (s.log p) l) :
    Backed tm (s.accept p P l) := by
  have hself : (s.accept p P l).log p = l := by rw [State.accept_log, Function.update_self]
  have hother : ∀ {q : S}, q ≠ p → (s.accept p P l).log q = s.log q := fun hq => by
    rw [State.accept_log, Function.update_of_ne hq]
  refine ⟨fun {c t m} hst => ?_, h.voted, fun {q t m} ha => ?_, fun {q t m k} ha hk => ?_,
    fun {q u c v t m k} hv ha ht hk => ?_, fun {u c} ho => ?_⟩
  · obtain ⟨hle, hlog⟩ := h.stood hst
    refine ⟨hle, fun ht ho => ?_⟩
    have hc : c ≠ p := by
      intro hc
      have ht : s.cur p = t := hc ▸ ht
      have ho : s.owner t = none := ho
      rw [ht, ho] at hown
      cases hown
    rw [hother hc]
    exact hlog ht ho
  · rcases ha with ha | ha
    · cases ha
      exact ⟨Nat.le_refl _, hbook.length_le⟩
    · exact h.acked ha
  · rcases ha with ha | ha
    · cases ha
      have hP : (s.book (s.cur p)).take k = P.take k := by
        obtain ⟨rest, hrest⟩ := hbook
        rw [← hrest, List.take_append_of_le_length hk]
      rw [hself, State.accept_book, hP]
      exact Or.inl ((List.take_prefix k P).trans hl.covers)
    · by_cases hq : q = p
      · subst hq
        rw [hself]
        rcases h.held ha hk with hp | hlost
        · exact held_accept hown hbase hbook hl (h.acked ha).1 hp
        · exact Or.inr hlost
      · rw [hother hq]
        exact h.held ha hk
  · -- A vote of a later term than the new acknowledgement would be of a term yet to come.
    rcases ha with ha | ha
    · cases ha
      exact absurd (h.voted hv).1 (Nat.not_le_of_lt ht)
    · exact h.ballots hv ha ht hk
  · have hc : Carry s (s.accept p P l) := ⟨fun _ => List.prefix_rfl, fun ho => ⟨ho, rfl⟩⟩
    refine h.elected_carry hc ho (fun _ hx => hx) fun hv ht ha => ?_
    rcases ha with ha | ha
    · cases ha
      exact absurd (h.voted hv).1 (Nat.not_le_of_lt ht)
    · exact ha

theorem step (h : Backed tm s) (hsound : Sound tm z s) (hs : Step tm Won s s') : Backed tm s' := by
  cases hs with
  | advance ht => exact h.advance ht
  | stand => exact h.stand _
  | vote hst hup => exact h.vote hsound hst hup
  | claim hpos hown hwon => exact h.claim hsound hpos hown hwon
  | append hown he => exact h.append hsound hown he
  | accept hown hbase hbook hl => exact h.accept hown hbase hbook hl

theorem steps (h : Backed tm s) (hsound : Sound tm z s) (hs : Relation.ReflTransGen (Step tm Won) s s') :
    Backed tm s' := by
  induction hs with
  | refl => exact h
  | tail hs hstep ih => exact ih.step (hsound.steps hs) hstep

end Backed

/-! ### Leader completeness -/

/-- `K` is a prefix of the book of `t` that ends in an entry of that term, and a majority acknowledged it. -/
def Committed (tm : E → ℕ) (s : State S E) (t : ℕ) (K : List E) : Prop :=
  K <+: s.book t ∧ (∃ P e, K = P ++ [e] ∧ tm e = t) ∧
    ∃ R : Finset S, IsMajority R ∧ ∀ p ∈ R, ∃ m, (p, t, m) ∈ s.acked ∧ K.length ≤ m

namespace Committed

variable {t : ℕ} {K : List E}

omit [DecidableEq S] in
theorem take_book (h : Committed tm s t K) : (s.book t).take K.length = K :=
  (List.prefix_iff_eq_take.mp h.1).symm

theorem step {G : State S E → S → Prop} (h : Committed tm s t K) (hsound : Sound tm z s) (hs : Step tm G s s') :
    Committed tm s' t K := by
  obtain ⟨hK, hlast, R, hR, hack⟩ := h
  refine ⟨hK.trans (hsound.book_mono hs t), hlast, R, hR, fun p hp => ?_⟩
  obtain ⟨m, ha, hm⟩ := hack p hp
  refine ⟨m, ?_, hm⟩
  cases hs with
  | accept => exact Or.inr ha
  | _ => exact ha

theorem steps {G : State S E → S → Prop} (h : Committed tm s t K) (hsound : Sound tm z s)
    (hs : Relation.ReflTransGen (Step tm G) s s') : Committed tm s' t K := by
  induction hs with
  | refl => exact h
  | tail hs hstep ih => exact ih.step (hsound.steps hs) hstep

/-- By induction on the later term: a common member of the two majorities carries `K` into the later book. -/
theorem prefix_base (h : Committed tm s t K) (hsound : Sound tm z s) (hb : Backed tm s) {u : ℕ} {c : S}
    (ho : s.owner u = some c) (htu : t < u) : K <+: s.base u := by
  induction u using Nat.strong_induction_on generalizing c with
  | _ u ih =>
    obtain ⟨Q, hQ, hel⟩ := hb.elected ho
    obtain ⟨R, hR, hack⟩ := h.2.2
    obtain ⟨p, hpQ, hpR⟩ := hQ.exists_common hR
    obtain ⟨m, ha, hm⟩ := hack p hpR
    obtain ⟨v, hv, ⟨x, y, hx, hy, hlast⟩, hall⟩ := hel p hpQ
    have hKv : K <+: v := by
      rcases hall t m K.length ha htu hm with hp | ⟨w, hlo, hhi, ⟨o, ho'⟩, hno⟩
      · rwa [h.take_book] at hp
      · rw [h.take_book] at hno
        exact absurd (ih w hhi ho' hlo) hno
    have hvy : v <+: s.book (tm y) := (hb.voted hv).2.1.prefix_book hy
    have hux : s.base u <+: s.book (tm x) := ((hsound.books u).of_le (hsound.bases u c ho).1).prefix_book hx
    rcases hlast with hlt | ⟨heq, hlen⟩
    · -- The later book was started with entries of a term after the voter's: that term's book has `K`.
      have hty : t ≤ tm y := by
        obtain ⟨P, e, rfl, he⟩ := h.2.1
        have hmem : e ∈ v := hKv.subset (List.mem_append_right _ (List.mem_singleton_self e))
        exact he ▸ hsound.bound _ e (hvy.subset hmem)
      have hxmem : x ∈ s.base u := List.mem_of_getLast? hx
      have hxu : tm x < u := (hsound.bases u c ho).2.2 x hxmem
      cases hox : s.owner (tm x) with
      | none =>
        rw [hsound.unowned _ (by omega) hox] at hux
        rw [List.prefix_nil.mp hux] at hxmem
        cases hxmem
      | some o =>
        have hKx : K <+: s.base (tm x) := ih (tm x) hxu hox (by omega)
        obtain ⟨hbx, -, hlow⟩ := hsound.bases (tm x) o hox
        rcases List.prefix_or_prefix_of_prefix hbx hux with hle | hle
        · exact hKx.trans hle
        · exact absurd (hlow x (hle.subset hxmem)) (Nat.lt_irrefl _)
    · rw [heq] at hvy
      exact hKv.trans (List.prefix_of_prefix_length_le hvy hux hlen)

/-- The winner of a later term has `K` in its log, whether it has claimed its term yet or not. -/
theorem prefix_log (h : Committed tm s t K) (hsound : Sound tm z s) (hb : Backed tm s) {c : S} (hwon : Won s c)
    (hown : s.owner (s.cur c) = none ∨ s.owner (s.cur c) = some c) (htc : t < s.cur c) : K <+: s.log c := by
  have hpos : 0 < s.cur c := Nat.zero_lt_of_lt htc
  rcases hown with hown | hown
  · have hs : Step tm Won s (s.claim c) := .claim hpos hown hwon
    have hbase : (s.claim c).base (s.cur c) = s.log c := by rw [State.claim_base, Function.update_self]
    have hnew : (s.claim c).owner (s.cur c) = some c := by rw [State.claim_owner, Function.update_self]
    rw [← hbase]
    exact (h.step hsound hs).prefix_base (hsound.step hs) (hb.step hsound hs) hnew htc
  · rw [(hsound.reigns _ c hown).2 rfl]
    exact (h.prefix_base hsound hb hown htc).trans (hsound.bases _ c hown).1

omit [DecidableEq S] in
theorem ne_nil (h : Committed tm s t K) : s.book t ≠ [] := by
  obtain ⟨hK, ⟨P, e, rfl, -⟩, -⟩ := h
  exact hK.ne_nil (by simp)

/-- Committed prefixes form a chain. -/
theorem comparable (h : Committed tm s t K) (hsound : Sound tm z s) (hb : Backed tm s) {t' : ℕ} {K' : List E}
    (h' : Committed tm s t' K') : K <+: K' ∨ K' <+: K := by
  -- An earlier committed prefix lies in the later book.
  have later : ∀ {t t' : ℕ} {K K' : List E}, Committed tm s t K → Committed tm s t' K' → t < t' →
      K <+: K' ∨ K' <+: K := by
    intro t t' K K' h h' hlt
    cases ho : s.owner t' with
    | none => exact absurd (hsound.unowned t' (by omega) ho) h'.ne_nil
    | some o =>
      have hK := (h.prefix_base hsound hb ho hlt).trans (hsound.bases t' o ho).1
      exact List.prefix_or_prefix_of_prefix hK h'.1
  rcases Nat.lt_trichotomy t t' with hlt | rfl | hlt
  · exact later h h' hlt
  · exact List.prefix_or_prefix_of_prefix h.1 h'.1
  · exact (later h' h hlt).symm

end Committed

/-! ### Chosen prefixes -/

/-- `K` is part of what was committed in a term up to `t`, or of the common start of all logs. -/
def Chosen (tm : E → ℕ) (z : E) (s : State S E) (t : ℕ) (K : List E) : Prop :=
  K <+: [z] ∨ ∃ t' L, t' ≤ t ∧ Committed tm s t' L ∧ K <+: L

namespace Chosen

variable {t : ℕ} {K : List E}

omit [DecidableEq S] in
theorem mono (h : Chosen tm z s t K) {t' : ℕ} (ht : t ≤ t') {K' : List E} (hK : K' <+: K) : Chosen tm z s t' K' := by
  rcases h with h | ⟨u, L, hu, hL, hKL⟩
  · exact Or.inl (hK.trans h)
  · exact Or.inr ⟨u, L, Nat.le_trans hu ht, hL, hK.trans hKL⟩

theorem steps {G : State S E → S → Prop} (h : Chosen tm z s t K) (hsound : Sound tm z s)
    (hs : Relation.ReflTransGen (Step tm G) s s') : Chosen tm z s' t K := by
  rcases h with h | ⟨u, L, hu, hL, hKL⟩
  · exact Or.inl h
  · exact Or.inr ⟨u, L, hu, hL.steps hsound hs, hKL⟩

theorem comparable (h : Chosen tm z s t K) (hsound : Sound tm z s) (hb : Backed tm s) {t' : ℕ} {K' : List E}
    (h' : Chosen tm z s t' K') : K <+: K' ∨ K' <+: K := by
  -- The common start is part of every committed prefix.
  have start : ∀ {u : ℕ} {L : List E}, Committed tm s u L → [z] <+: L := by
    intro u L hL
    have hz := (hsound.heads u).resolve_left hL.ne_nil
    obtain ⟨P, e, rfl, -⟩ := hL.2.1
    exact List.prefix_of_prefix_length_le hz hL.1 (by simp)
  rcases h with h | ⟨u, L, -, hL, hKL⟩ <;> rcases h' with h' | ⟨u', L', -, hL', hKL'⟩
  · exact List.prefix_or_prefix_of_prefix h h'
  · exact List.prefix_or_prefix_of_prefix (h.trans (start hL')) hKL'
  · exact List.prefix_or_prefix_of_prefix hKL (h'.trans (start hL))
  · rcases hL.comparable hsound hb hL' with hle | hle
    · exact List.prefix_or_prefix_of_prefix (hKL.trans hle) hKL'
    · exact List.prefix_or_prefix_of_prefix hKL (hKL'.trans hle)

/-- Facts that longer prefixes keep, and of which each holds of a chosen prefix, hold together of one. -/
theorem exists_common {α : Type*} {Q : α → List E → Prop} (hsound : Sound tm z s) (hb : Backed tm s)
    (mono : ∀ x K K', K <+: K' → Q x K → Q x K') (xs : List α)
    (h : ∀ x ∈ xs, ∃ t K, Chosen tm z s t K ∧ Q x K) : ∃ t K, Chosen tm z s t K ∧ ∀ x ∈ xs, Q x K := by
  induction xs with
  | nil => exact ⟨0, [], Or.inl List.nil_prefix, nofun⟩
  | cons x xs ih =>
    obtain ⟨t, K, hK, hall⟩ := ih fun y hy => h y (List.mem_cons_of_mem _ hy)
    obtain ⟨t', K', hK', hx⟩ := h x List.mem_cons_self
    rcases hK.comparable hsound hb hK' with hle | hle
    · exact ⟨t', K', hK', List.forall_mem_cons.mpr ⟨hx, fun y hy => mono y K K' hle (hall y hy)⟩⟩
    · exact ⟨t, K, hK, List.forall_mem_cons.mpr ⟨mono x K' K hle hx, hall⟩⟩

/-- A server that takes over part of the book of its term keeps what was chosen up to that term. -/
theorem adopted {p o : S} {P l : List E} (h : Chosen tm z s (s.cur p) K) (hsound : Sound tm z s) (hb : Backed tm s)
    (hown : s.owner (s.cur p) = some o) (hbase : s.base (s.cur p) <+: P) (hbook : P <+: s.book (s.cur p))
    (hl : Adopts P (s.log p) l) (hK : K <+: s.log p) : K <+: l := by
  rcases hl with ⟨-, rfl⟩ | ⟨hno, rfl⟩
  · exact hK
  · rcases h with h | ⟨t, L, ht, hL, hKL⟩
    · exact h.trans ((hsound.bases _ o hown).2.1.trans hbase)
    · rcases Nat.lt_or_eq_of_le ht with hlt | rfl
      · exact hKL.trans ((hL.prefix_base hsound hb hown hlt).trans hbase)
      · rcases List.prefix_or_prefix_of_prefix (hKL.trans hL.1) hbook with hle | hle
        · exact hle
        · exact absurd (hle.trans hK) hno

end Chosen

end ReplicatedLog
