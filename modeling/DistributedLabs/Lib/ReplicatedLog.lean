import Mathlib.Data.List.Infix
import Mathlib.Data.Set.Insert
import Mathlib.Logic.Function.Basic
import Mathlib.Logic.Relation
import Mathlib.Tactic.Simps.Basic

/-! A replicated log with one owner per term. Servers move to later terms, stand for them and vote; the owner
    of a term starts its book with its own log and appends to it; a server in that term takes over any part of
    the book that covers what the book was started with. Entries carry the term they were appended in.

    Every log is grounded: each of its prefixes is a prefix of the book of the term of its last entry. Hence two
    logs that agree in the term of an entry agree up to it. -/

namespace ReplicatedLog

variable {S E : Type*}

/-! ### Matching logs -/

section Matching
variable (tm : E → ℕ)

/-- Logs that hold entries of the same term at an index are the same up to there. -/
def Matching (l l' : List E) : Prop :=
  ∀ k e e', l[k]? = some e → l'[k]? = some e' → tm e = tm e' → l.take (k + 1) = l'.take (k + 1)

variable {tm} {l l' P : List E}

theorem Matching.refl (l : List E) : Matching tm l l := fun _ _ _ _ _ _ => rfl

theorem Matching.of_isPrefix (h : Matching tm l l') (hP : P <+: l') : Matching tm l P := by
  intro k e e' he he' htm
  obtain ⟨rest, rfl⟩ := hP
  have hlt := (List.getElem?_eq_some_iff.mp he').1
  rw [h k e e' he (by rw [List.getElem?_append_left hlt]; exact he') htm]
  exact List.take_append_of_le_length hlt

/-- An entry that both logs hold stands in both after the same entries. -/
theorem Matching.take_eq (h : Matching tm l l') {k : ℕ} {e : E} (he : l[k]? = some e) (he' : l'[k]? = some e) :
    l.take (k + 1) = l'.take (k + 1) := h k e e he he' rfl

end Matching

/-! ### Grounded logs -/

section Grounded
variable (tm : E → ℕ)

/-- Each prefix is a prefix of the book of the term of its last entry. -/
def Grounded (book : ℕ → List E) (l : List E) : Prop :=
  ∀ P e, P ++ [e] <+: l → P ++ [e] <+: book (tm e)

variable {tm} {book book' : ℕ → List E} {l l' : List E}

theorem Grounded.of_le (h : Grounded tm book l) (hp : l' <+: l) : Grounded tm book l' :=
  fun P e hPe => h P e (hPe.trans hp)

theorem Grounded.mono (h : Grounded tm book l) (hb : ∀ t, book t <+: book' t) : Grounded tm book' l :=
  fun P e hPe => (h P e hPe).trans (hb _)

theorem Grounded.concat (h : Grounded tm book l) {e : E} (he : l ++ [e] <+: book (tm e)) :
    Grounded tm book (l ++ [e]) := by
  intro P x hPx
  rcases List.prefix_concat_iff.mp hPx with heq | hPx
  · obtain ⟨rfl, hx⟩ := List.append_inj heq (by simpa using congrArg List.length heq)
    cases hx
    exact he
  · exact h P x hPx

/-- A log that ends in `e` is a prefix of the book of the term of `e`. -/
theorem Grounded.prefix_book (h : Grounded tm book l) {e : E} (he : l.getLast? = some e) : l <+: book (tm e) := by
  obtain ⟨P, rfl⟩ := List.getLast?_eq_some_iff.mp he
  exact h P e List.prefix_rfl

theorem Grounded.take_prefix_book (h : Grounded tm book l) {k : ℕ} {e : E} (he : l[k]? = some e) :
    l.take (k + 1) <+: book (tm e) := by
  have hsplit : l.take (k + 1) = l.take k ++ [e] := by
    rw [List.take_add_one, he]
    rfl
  rw [hsplit]
  exact h _ e (hsplit ▸ List.take_prefix _ _)

/-- Grounded logs that agree in the term of an entry agree up to it. -/
theorem Grounded.agree (h : Grounded tm book l) (h' : Grounded tm book l') : Matching tm l l' := by
  intro k e e' he he' htm
  have hlen : ∀ {m : List E} {x : E}, m[k]? = some x → (m.take (k + 1)).length = k + 1 := by
    intro m x hx
    obtain ⟨hlt, -⟩ := List.getElem?_eq_some_iff.mp hx
    rw [List.length_take]
    omega
  have hp := h.take_prefix_book he
  have hp' := h'.take_prefix_book he'
  rw [← htm] at hp'
  exact (List.prefix_of_prefix_length_le hp hp' (by rw [hlen he, hlen he'])).eq_of_length (by rw [hlen he, hlen he'])

end Grounded

/-! ### States and steps -/

/-- `book t` is the log of the owner of term `t`, as far as it came in that term, and `base t` what it started
    with. The last three fields record who voted, stood and acknowledged, each with the log or the length at
    that moment. -/
structure State (S E : Type*) where
  cur : S → ℕ
  log : S → List E
  owner : ℕ → Option S
  base : ℕ → List E
  book : ℕ → List E
  voted : Set (S × ℕ × S × List E)
  stood : Set (S × ℕ × List E)
  acked : Set (S × ℕ × ℕ)

/-- `l'` is `l` after it took over `P`: unchanged if it has `P`, and `P` otherwise. -/
def Adopts (P l l' : List E) : Prop := (P <+: l ∧ l' = l) ∨ (¬ P <+: l ∧ l' = P)

/-- A candidate with log `l` may have the vote of a server with log `v`: its last term is later, or equal and it
    is no shorter. -/
def UpToDate (tm : E → ℕ) (l v : List E) : Prop :=
  ∃ x y, l.getLast? = some x ∧ v.getLast? = some y ∧ (tm y < tm x ∨ (tm y = tm x ∧ v.length ≤ l.length))

namespace State

/-- Nobody has done anything: every log holds the entry `z` only, and so does the book of term 0. -/
@[simps]
def init (S : Type*) (z : E) : State S E where
  cur := fun _ => 0
  log := fun _ => [z]
  owner := fun _ => none
  base := fun _ => []
  book := fun t => if t = 0 then [z] else []
  voted := ∅
  stood := ∅
  acked := ∅

variable (s : State S E)

@[simps]
def stand (c : S) : State S E := { s with stood := insert (c, s.cur c, s.log c) s.stood }

@[simps]
def vote (p c : S) : State S E := { s with voted := insert (p, s.cur p, c, s.log p) s.voted }

@[simps]
def claim (c : S) : State S E :=
  { s with
    owner := Function.update s.owner (s.cur c) (some c)
    base := Function.update s.base (s.cur c) (s.log c)
    book := Function.update s.book (s.cur c) (s.log c) }

variable [DecidableEq S]

@[simps]
def advance (p : S) (t : ℕ) : State S E := { s with cur := Function.update s.cur p t }

@[simps]
def append (c : S) (e : E) : State S E :=
  { s with
    log := Function.update s.log c (s.log c ++ [e])
    book := Function.update s.book (s.cur c) (s.log c ++ [e]) }

@[simps]
def accept (p : S) (P l : List E) : State S E :=
  { s with log := Function.update s.log p l, acked := insert (p, s.cur p, P.length) s.acked }

end State

/-- The steps of the system; `G` is what it takes to claim a term. -/
inductive Step [DecidableEq S] (tm : E → ℕ) (G : State S E → S → Prop) : State S E → State S E → Prop where
  | advance {s : State S E} {p : S} {t : ℕ} (ht : s.cur p < t) : Step tm G s (s.advance p t)
  | stand {s : State S E} {c : S} : Step tm G s (s.stand c)
  | vote {s : State S E} {p c : S} {l : List E} (hst : (c, s.cur p, l) ∈ s.stood) (hup : UpToDate tm l (s.log p)) :
      Step tm G s (s.vote p c)
  | claim {s : State S E} {c : S} (hpos : 0 < s.cur c) (hown : s.owner (s.cur c) = none) (hG : G s c) :
      Step tm G s (s.claim c)
  | append {s : State S E} {c : S} {e : E} (hown : s.owner (s.cur c) = some c) (he : tm e = s.cur c) :
      Step tm G s (s.append c e)
  | accept {s : State S E} {p o : S} {P l : List E} (hown : s.owner (s.cur p) = some o)
      (hbase : s.base (s.cur p) <+: P) (hbook : P <+: s.book (s.cur p)) (hl : Adopts P (s.log p) l) :
      Step tm G s (s.accept p P l)

/-! ### The invariant -/

section Sound
variable {tm : E → ℕ} {z : E}

theorem Adopts.covers {P l l' : List E} (h : Adopts P l l') : P <+: l' := by
  rcases h with ⟨hP, rfl⟩ | ⟨-, rfl⟩
  · exact hP
  · exact List.prefix_rfl

/-- A log that matches `l` and `L` matches what `l` is after it took over a part of `L`. -/
theorem Adopts.matching {P L l l' x : List E} (h : Adopts P l l') (hP : P <+: L) (hl : Matching tm x l)
    (hL : Matching tm x L) : Matching tm x l' := by
  rcases h with ⟨-, rfl⟩ | ⟨-, rfl⟩
  · exact hl
  · exact hL.of_isPrefix hP

/-- What `l` shares with `L` stays when it takes over a part of `L`. -/
theorem Adopts.keeps {P L l l' : List E} (h : Adopts P l l') (hP : P <+: L) (hmatch : Matching tm l L) {k : ℕ} {e : E}
    (he : l[k]? = some e) (hL : L[k]? = some e) : l'[k]? = some e := by
  rcases h with ⟨-, rfl⟩ | ⟨hno, rfl⟩
  · exact he
  · -- A part that ends before the shared entry would be a part of `l` already.
    have hlt : k < l'.length := by
      by_contra hge
      refine hno (List.IsPrefix.trans ?_ (List.take_prefix (k + 1) l))
      rw [hmatch.take_eq he hL, List.prefix_take_iff]
      exact ⟨hP, by omega⟩
    obtain ⟨rest, rfl⟩ := hP
    rwa [List.getElem?_append_left hlt] at hL

/-- Logs and books are grounded and no later than their terms; an unowned book is empty; an owner that is still in
    its term holds the book as its log; a book was started with entries of earlier terms; all start with `z`. -/
structure Sound (tm : E → ℕ) (z : E) (s : State S E) : Prop where
  logs : ∀ p, Grounded tm s.book (s.log p)
  books : ∀ t, Grounded tm s.book (s.book t)
  bound : ∀ t, ∀ e ∈ s.book t, tm e ≤ t
  cap : ∀ p, ∀ e ∈ s.log p, tm e ≤ s.cur p
  unowned : ∀ t, 0 < t → s.owner t = none → s.book t = []
  reigns : ∀ t c, s.owner t = some c → t ≤ s.cur c ∧ (s.cur c = t → s.log c = s.book t)
  bases : ∀ t c, s.owner t = some c → s.base t <+: s.book t ∧ [z] <+: s.base t ∧ ∀ e ∈ s.base t, tm e < t
  start : ∀ p, [z] <+: s.log p
  heads : ∀ t, s.book t = [] ∨ [z] <+: s.book t

theorem sound_init (hz : tm z = 0) : Sound tm z (State.init S z) := by
  have ground : Grounded tm (State.init S z).book [z] := by
    refine Grounded.concat (l := []) (fun P e hPe => ?_) ?_
    · simp at hPe
    · rw [hz]
      exact List.prefix_rfl
  have single : ∀ {e : E}, e ∈ [z] → tm e = 0 := fun he => by rw [List.mem_singleton.mp he, hz]
  refine ⟨fun p => ground, fun t => ?_, fun t e he => ?_, fun p e he => ?_, fun t ht _ => ?_, fun t c h => ?_,
    fun t c h => ?_, fun p => List.prefix_rfl, fun t => ?_⟩
  · by_cases ht : t = 0
    · rw [State.init_book, if_pos ht]
      exact ground
    · rw [State.init_book, if_neg ht]
      exact ground.of_le List.nil_prefix
  · by_cases ht : t = 0
    · rw [State.init_book, if_pos ht] at he
      rw [single he]
      exact Nat.zero_le t
    · rw [State.init_book, if_neg ht] at he
      cases he
  · exact Nat.le_of_eq (single he)
  · rw [State.init_book, if_neg (Nat.ne_of_gt ht)]
  · cases h
  · cases h
  · by_cases ht : t = 0
    · rw [State.init_book, if_pos ht]
      exact Or.inr List.prefix_rfl
    · rw [State.init_book, if_neg ht]
      exact Or.inl rfl

namespace Sound

variable {s s' : State S E}

/-- A step that leaves logs and books alone and lowers no term. -/
theorem frame (h : Sound tm z s) (hlog : s'.log = s.log) (hbook : s'.book = s.book) (howner : s'.owner = s.owner)
    (hbase : s'.base = s.base) (hcur : ∀ p, s.cur p ≤ s'.cur p) : Sound tm z s' := by
  refine ⟨?_, ?_, ?_, fun p e he => ?_, ?_, fun t c ho => ?_, ?_, ?_, ?_⟩
  · rw [hlog, hbook]
    exact h.logs
  · rw [hbook]
    exact h.books
  · rw [hbook]
    exact h.bound
  · rw [hlog] at he
    exact Nat.le_trans (h.cap p e he) (hcur p)
  · rw [howner, hbook]
    exact h.unowned
  · rw [howner] at ho
    obtain ⟨hle, hlast⟩ := h.reigns t c ho
    rw [hlog, hbook]
    refine ⟨Nat.le_trans hle (hcur c), fun heq => hlast ?_⟩
    exact Nat.le_antisymm (heq ▸ hcur c) hle
  · rw [howner, hbase, hbook]
    exact h.bases
  · rw [hlog]
    exact h.start
  · rw [hbook]
    exact h.heads

theorem claim_book (h : Sound tm z s) {c : S} (hpos : 0 < s.cur c) (hown : s.owner (s.cur c) = none) (t : ℕ) :
    s.book t <+: (s.claim c).book t := by
  rw [State.claim_book, Function.update_apply]
  split
  · rename_i ht
    rw [ht, h.unowned _ hpos hown]
    exact List.nil_prefix
  · exact List.prefix_rfl

theorem claim (h : Sound tm z s) {c : S} (hpos : 0 < s.cur c) (hown : s.owner (s.cur c) = none) :
    Sound tm z (s.claim c) := by
  have hup := h.claim_book hpos hown
  have hold : ∀ {t : ℕ}, t ≠ s.cur c → (s.claim c).book t = s.book t ∧ (s.claim c).base t = s.base t ∧
      (s.claim c).owner t = s.owner t := by
    intro t ht
    rw [State.claim_book, State.claim_base, State.claim_owner, Function.update_of_ne ht, Function.update_of_ne ht,
      Function.update_of_ne ht]
    exact ⟨rfl, rfl, rfl⟩
  have hnew : (s.claim c).book (s.cur c) = s.log c ∧ (s.claim c).base (s.cur c) = s.log c ∧
      (s.claim c).owner (s.cur c) = some c := by
    rw [State.claim_book, State.claim_base, State.claim_owner, Function.update_self, Function.update_self,
      Function.update_self]
    exact ⟨rfl, rfl, rfl⟩
  refine ⟨fun p => (h.logs p).mono hup, fun t => ?_, fun t e he => ?_, h.cap, fun t ht ho => ?_, fun t d ho => ?_,
    fun t d ho => ?_, h.start, fun t => ?_⟩
  · by_cases ht : t = s.cur c
    · rw [ht, hnew.1]
      exact (h.logs c).mono hup
    · rw [(hold ht).1]
      exact (h.books t).mono hup
  · by_cases ht : t = s.cur c
    · rw [ht, hnew.1] at he
      rw [ht]
      exact h.cap c e he
    · rw [(hold ht).1] at he
      exact h.bound t e he
  · have hne : t ≠ s.cur c := by
      rintro rfl
      rw [hnew.2.2] at ho
      cases ho
    rw [(hold hne).2.2] at ho
    rw [(hold hne).1]
    exact h.unowned t ht ho
  · by_cases ht : t = s.cur c
    · subst ht
      rw [hnew.2.2] at ho
      cases ho
      rw [hnew.1]
      exact ⟨Nat.le_refl _, fun _ => rfl⟩
    · rw [(hold ht).2.2] at ho
      rw [(hold ht).1]
      exact h.reigns t d ho
  · by_cases ht : t = s.cur c
    · subst ht
      rw [hnew.1, hnew.2.1]
      refine ⟨List.prefix_rfl, h.start c, fun e he => Nat.lt_of_le_of_ne (h.cap c e he) fun heq => ?_⟩
      -- An entry of the new term would stand in the empty book of that term.
      obtain ⟨P, Q, hPQ⟩ := List.append_of_mem he
      have hP : P ++ [e] <+: s.book (tm e) := h.logs c P e ⟨Q, by rw [hPQ]; simp⟩
      rw [heq, h.unowned _ hpos hown] at hP
      simp at hP
    · rw [(hold ht).2.2] at ho
      rw [(hold ht).1, (hold ht).2.1]
      exact h.bases t d ho
  · by_cases ht : t = s.cur c
    · rw [ht, hnew.1]
      exact Or.inr (h.start c)
    · rw [(hold ht).1]
      exact h.heads t

variable [DecidableEq S]

theorem cur_le_advance (s : State S E) {p : S} {t : ℕ} (ht : s.cur p ≤ t) (q : S) :
    s.cur q ≤ (s.advance p t).cur q := by
  rw [State.advance_cur, Function.update_apply]
  split
  · rename_i hq
    rw [hq]
    exact ht
  · exact Nat.le_refl _

theorem append_book (h : Sound tm z s) {c : S} (hown : s.owner (s.cur c) = some c) (e : E) (t : ℕ) :
    s.book t <+: (s.append c e).book t := by
  rw [State.append_book, Function.update_apply]
  split
  · rename_i ht
    rw [ht, ← (h.reigns _ c hown).2 rfl]
    exact List.prefix_append _ _
  · exact List.prefix_rfl

theorem append (h : Sound tm z s) {c : S} {e : E} (hown : s.owner (s.cur c) = some c) (he : tm e = s.cur c) :
    Sound tm z (s.append c e) := by
  have hup := h.append_book hown e
  have hlog := (h.reigns _ c hown).2 rfl
  have hnew : (s.append c e).book (s.cur c) = s.log c ++ [e] := by rw [State.append_book, Function.update_self]
  have hold : ∀ {t : ℕ}, t ≠ s.cur c → (s.append c e).book t = s.book t := fun ht => by
    rw [State.append_book, Function.update_of_ne ht]
  have hself : (s.append c e).log c = s.log c ++ [e] := by rw [State.append_log, Function.update_self]
  have hother : ∀ {p : S}, p ≠ c → (s.append c e).log p = s.log p := fun hp => by
    rw [State.append_log, Function.update_of_ne hp]
  have ground : Grounded tm (s.append c e).book (s.log c ++ [e]) := by
    refine ((h.logs c).mono hup).concat ?_
    rw [he, hnew]
  refine ⟨fun p => ?_, fun t => ?_, fun t x hx => ?_, fun p x hx => ?_, fun t ht ho => ?_, fun t d ho => ?_,
    fun t d ho => ?_, fun p => ?_, fun t => ?_⟩
  · by_cases hp : p = c
    · rw [hp, hself]
      exact ground
    · rw [hother hp]
      exact (h.logs p).mono hup
  · by_cases ht : t = s.cur c
    · rw [ht, hnew]
      exact ground
    · rw [hold ht]
      exact (h.books t).mono hup
  · by_cases ht : t = s.cur c
    · rw [ht, hnew] at hx
      rw [ht]
      rcases List.mem_append.mp hx with hx | hx
      · exact h.cap c x hx
      · rw [List.mem_singleton.mp hx, he]
    · rw [hold ht] at hx
      exact h.bound t x hx
  · by_cases hp : p = c
    · subst hp
      rw [hself] at hx
      rcases List.mem_append.mp hx with hx | hx
      · exact h.cap p x hx
      · rw [List.mem_singleton.mp hx, he]
        exact Nat.le_refl _
    · rw [hother hp] at hx
      exact h.cap p x hx
  · have hne : t ≠ s.cur c := by
      rintro rfl
      have ho : s.owner (s.cur c) = none := ho
      rw [hown] at ho
      cases ho
    rw [hold hne]
    exact h.unowned t ht ho
  · obtain ⟨hle, hlast⟩ := h.reigns t d ho
    refine ⟨hle, fun heq => ?_⟩
    by_cases ht : t = s.cur c
    · subst ht
      have hd : d = c := Option.some.inj (ho.symm.trans hown)
      rw [hd, hself, hnew]
    · have hd : d ≠ c := by
        rintro rfl
        exact ht heq.symm
      rw [hother hd, hold ht]
      exact hlast heq
  · obtain ⟨hb, hrest⟩ := h.bases t d ho
    exact ⟨hb.trans (hup t), hrest⟩
  · by_cases hp : p = c
    · rw [hp, hself]
      exact (h.start c).trans (List.prefix_append _ _)
    · rw [hother hp]
      exact h.start p
  · by_cases ht : t = s.cur c
    · rw [ht, hnew]
      exact Or.inr ((h.start c).trans (List.prefix_append _ _))
    · rw [hold ht]
      exact h.heads t

theorem accept (h : Sound tm z s) {p o : S} {P l : List E} (hown : s.owner (s.cur p) = some o)
    (hbase : s.base (s.cur p) <+: P) (hbook : P <+: s.book (s.cur p)) (hl : Adopts P (s.log p) l) :
    Sound tm z (s.accept p P l) := by
  have hself : (s.accept p P l).log p = l := by rw [State.accept_log, Function.update_self]
  have hother : ∀ {q : S}, q ≠ p → (s.accept p P l).log q = s.log q := fun hq => by
    rw [State.accept_log, Function.update_of_ne hq]
  refine ⟨fun q => ?_, h.books, h.bound, fun q e he => ?_, h.unowned, fun t d ho => ?_, h.bases, fun q => ?_, h.heads⟩
  · by_cases hq : q = p
    · rw [hq, hself]
      rcases hl with ⟨-, rfl⟩ | ⟨-, rfl⟩
      · exact h.logs p
      · exact (h.books _).of_le hbook
    · rw [hother hq]
      exact h.logs q
  · by_cases hq : q = p
    · subst hq
      rw [hself] at he
      rcases hl with ⟨-, rfl⟩ | ⟨-, rfl⟩
      · exact h.cap q e he
      · exact h.bound _ e (hbook.subset he)
    · rw [hother hq] at he
      exact h.cap q e he
  · obtain ⟨hle, hlast⟩ := h.reigns t d ho
    refine ⟨hle, fun heq => ?_⟩
    by_cases hd : d = p
    · -- The owner of the term has the whole book: it takes nothing over.
      subst hd
      have heq : s.cur d = t := heq
      have hfull := hlast heq
      rw [hself, State.accept_book]
      rcases hl with ⟨-, rfl⟩ | ⟨hno, -⟩
      · exact hfull
      · rw [heq, ← hfull] at hbook
        exact absurd hbook hno
    · rw [hother hd]
      exact hlast heq
  · by_cases hq : q = p
    · rw [hq, hself]
      rcases hl with ⟨-, rfl⟩ | ⟨-, rfl⟩
      · exact h.start p
      · exact ((h.bases _ o hown).2.1).trans hbase
    · rw [hother hq]
      exact h.start q

theorem step {G : State S E → S → Prop} (h : Sound tm z s) (hs : Step tm G s s') : Sound tm z s' := by
  cases hs with
  | advance ht => exact h.frame rfl rfl rfl rfl (cur_le_advance s (Nat.le_of_lt ht))
  | stand => exact h.frame rfl rfl rfl rfl fun p => Nat.le_refl _
  | vote => exact h.frame rfl rfl rfl rfl fun p => Nat.le_refl _
  | claim hpos hown => exact h.claim hpos hown
  | append hown he => exact h.append hown he
  | accept hown hbase hbook hl => exact h.accept hown hbase hbook hl

theorem steps {G : State S E → S → Prop} (h : Sound tm z s) (hs : Relation.ReflTransGen (Step tm G) s s') :
    Sound tm z s' := by
  induction hs with
  | refl => exact h
  | tail _ hstep ih => exact ih.step hstep

theorem book_mono {G : State S E → S → Prop} (h : Sound tm z s) (hs : Step tm G s s') (t : ℕ) :
    s.book t <+: s'.book t := by
  cases hs with
  | claim hpos hown => exact h.claim_book hpos hown t
  | append hown => exact h.append_book hown _ t
  | _ => exact List.prefix_rfl

theorem book_steps {G : State S E → S → Prop} (h : Sound tm z s) (hs : Relation.ReflTransGen (Step tm G) s s')
    (t : ℕ) : s.book t <+: s'.book t := by
  induction hs with
  | refl => exact List.prefix_rfl
  | tail hs hstep ih => exact ih.trans ((h.steps hs).book_mono hstep t)

end Sound

end Sound

end ReplicatedLog
