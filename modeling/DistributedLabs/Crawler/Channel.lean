import DistributedLabs.Crawler.Serial
import DistributedLabs.Lib.Run
import DistributedLabs.Lib.Table

/-! `ConcurrentChannel`: a master that marks URLs and starts a worker for each, and workers that send the links of their
    page back over an unbuffered channel. The master counts its workers and returns when none is left. -/

namespace DistributedLabs.Crawler

open Traversal Table

namespace Channel

/-! ### The program -/

/-- A goroutine that sends on the channel: a worker before its call of `Fetch`, or one that is about to send. -/
inductive Routine where
  | worker (url : String)
  | sending (urls : List String)
  deriving DecidableEq

/-- What a worker sends. -/
def worker (fetcher : Fetcher) (url : String) : List String :=
  match fetcher url with
  | none => []
  | some urls => urls

/-- The variables of `master`, the goroutines, and the calls of `Fetch` in their order. `urls` is what is left of the
    message in hand, and `none` while the master waits for the next one. -/
structure Master where
  n : Nat
  fetched : Finset String
  urls : Option (List String)
  returned : Bool
  routines : List Routine
  fetches : List String

/-- `ConcurrentChannel` starts a goroutine that sends the first URL. -/
def init (url : String) : Master where
  n := 1
  fetched := ∅
  urls := none
  returned := false
  routines := [.sending [url]]
  fetches := []

inductive Action where
  | fetch (k : Nat)
  | receive (k : Nat)
  | next

/-- One round of the inner loop of `master`. -/
def Master.mark (m : Master) (u : String) (rest : List String) : Master :=
  if u ∈ m.fetched then { m with urls := some rest }
  else { m with
    n := m.n + 1
    fetched := insert u m.fetched
    urls := some rest
    routines := m.routines ++ [.worker u] }

/-- The end of a round of the outer loop. -/
def Master.finish (m : Master) : Master :=
  { m with n := m.n - 1, urls := none, returned := decide (m.n - 1 = 0) }

def step (fetcher : Fetcher) (m : Master) : Action → Option Master
  | .fetch k =>
    match m.routines[k]? with
    | some (.worker url) => some { m with
        routines := m.routines.set k (.sending (worker fetcher url))
        fetches := m.fetches ++ [url] }
    | _ => none
  | .receive k =>
    if m.returned then none
    else match m.urls, m.routines[k]? with
      | none, some (.sending urls) => some { m with urls := some urls, routines := m.routines.eraseIdx k }
      | _, _ => none
  | .next =>
    match m.urls with
    | none => none
    | some [] => some m.finish
    | some (u :: rest) => some (m.mark u rest)

def Reachable (fetcher : Fetcher) (url : String) (m : Master) : Prop :=
  Run.Steps (step fetcher) (fun _ _ => True) (init url) m

/-! ### What a step does -/

section Step
variable {fetcher : Fetcher} {m m' : Master} {a : Action}

theorem worker_eq (fetcher : Fetcher) (url : String) : worker fetcher url = links fetcher url := by
  unfold worker links
  cases fetcher url <;> rfl

inductive Stepped (fetcher : Fetcher) (m : Master) : Action → Master → Prop where
  | fetch {k : Nat} {url : String} (hk : m.routines[k]? = some (.worker url)) :
      Stepped fetcher m (.fetch k) { m with
        routines := m.routines.set k (.sending (links fetcher url))
        fetches := m.fetches ++ [url] }
  | receive {k : Nat} {urls : List String} (hreturned : m.returned = false) (hurls : m.urls = none)
      (hk : m.routines[k]? = some (.sending urls)) :
      Stepped fetcher m (.receive k) { m with urls := some urls, routines := m.routines.eraseIdx k }
  | skip {u : String} {rest : List String} (hurls : m.urls = some (u :: rest)) (hmem : u ∈ m.fetched) :
      Stepped fetcher m .next { m with urls := some rest }
  | start {u : String} {rest : List String} (hurls : m.urls = some (u :: rest)) (hmem : u ∉ m.fetched) :
      Stepped fetcher m .next { m with
        n := m.n + 1
        fetched := insert u m.fetched
        urls := some rest
        routines := m.routines ++ [.worker u] }
  | finish (hurls : m.urls = some []) : Stepped fetcher m .next m.finish

theorem step_inv (h : step fetcher m a = some m') : Stepped fetcher m a m' := by
  unfold step at h
  split at h
  · split at h
    · rename_i hk
      cases h
      rw [worker_eq]
      exact .fetch hk
    · cases h
  · split at h
    · cases h
    · rename_i hreturned
      split at h
      · rename_i hurls hk
        cases h
        exact .receive (by simpa using hreturned) hurls hk
      · cases h
  · split at h
    · cases h
    · rename_i hurls
      cases h
      exact .finish hurls
    · rename_i u rest hurls
      cases h
      unfold Master.mark
      split
      · rename_i hmem
        exact .skip hurls hmem
      · rename_i hmem
        exact .start hurls hmem

end Step

/-! ### Calls of `Fetch` -/

/-- The URLs of the workers that have not called `Fetch` yet. -/
def waiting (routines : List Routine) : List String :=
  routines.filterMap fun | .worker url => some url | .sending _ => none

theorem mem_waiting {routines : List Routine} {url : String} : url ∈ waiting routines ↔ .worker url ∈ routines := by
  unfold waiting
  rw [List.mem_filterMap]
  constructor
  · rintro ⟨r, hr, heq⟩
    cases r with
    | worker url' =>
      cases heq
      exact hr
    | sending urls => cases heq
  · intro hr
    exact ⟨_, hr, rfl⟩

/-- The calls that were made and those that the workers will make. -/
def Master.calls (m : Master) : List String := m.fetches ++ waiting m.routines

theorem waiting_set {routines : List Routine} {k : Nat} {url : String} {urls : List String}
    (hk : routines[k]? = some (.worker url)) :
    (url :: waiting (routines.set k (.sending urls))).Perm (waiting routines) := by
  obtain ⟨hlt, heq⟩ := List.getElem?_eq_some_iff.mp hk
  have hset : (waiting (routines.set k (.sending urls))).Perm (waiting (routines.eraseIdx k)) :=
    (List.set_perm_cons_eraseIdx hlt (.sending urls)).filterMap _
  have herase : (waiting (routines[k] :: routines.eraseIdx k)).Perm (waiting routines) :=
    (List.getElem_cons_eraseIdx_perm hlt).filterMap _
  rw [heq] at herase
  exact (hset.cons url).trans herase

theorem waiting_eraseIdx {routines : List Routine} {k : Nat} {urls : List String}
    (hk : routines[k]? = some (.sending urls)) : (waiting (routines.eraseIdx k)).Perm (waiting routines) := by
  obtain ⟨hlt, heq⟩ := List.getElem?_eq_some_iff.mp hk
  have herase : (waiting (routines[k] :: routines.eraseIdx k)).Perm (waiting routines) :=
    (List.getElem_cons_eraseIdx_perm hlt).filterMap _
  rw [heq] at herase
  exact herase

section Calls
variable {fetcher : Fetcher} {m m' : Master} {a : Action}

/-- A call is added only for a URL that was not marked, and the URL is marked with it. -/
theorem Stepped.calls (h : Stepped fetcher m a m') :
    (m'.calls.Perm m.calls ∧ m'.fetched = m.fetched) ∨
      ∃ u, u ∉ m.fetched ∧ m'.calls.Perm (u :: m.calls) ∧ m'.fetched = insert u m.fetched := by
  cases h with
  | fetch hk =>
    refine Or.inl ⟨?_, rfl⟩
    unfold Master.calls
    rw [List.append_assoc]
    exact (waiting_set hk).append_left m.fetches
  | receive _ _ hk => exact Or.inl ⟨(waiting_eraseIdx hk).append_left m.fetches, rfl⟩
  | @start u rest _ hmem =>
    refine Or.inr ⟨u, hmem, ?_, rfl⟩
    unfold Master.calls waiting
    rw [List.filterMap_append, ← List.append_assoc]
    exact List.perm_append_singleton u _
  | skip => exact Or.inl ⟨.refl _, rfl⟩
  | finish => exact Or.inl ⟨.refl _, rfl⟩

end Calls

/-! ### What the master knows -/

/-- The URL is in a message that the master has not dealt with. -/
def InFlight (m : Master) (u : String) : Prop :=
  (∃ urls, .sending urls ∈ m.routines ∧ u ∈ urls) ∨ ∃ urls, m.urls = some urls ∧ u ∈ urls

/-- The URL is marked, or will be when the master gets to it. -/
def Known (m : Master) (u : String) : Prop := u ∈ m.fetched ∨ InFlight m u

section Known
variable {fetcher : Fetcher} {m m' : Master} {a : Action} {u : String}

/-- What is known stays known. -/
theorem Stepped.known (h : Stepped fetcher m a m') (hu : Known m u) : Known m' u := by
  cases h with
  | fetch hk =>
    rcases hu with hu | ⟨urls, hr, hu⟩ | hu
    · exact Or.inl hu
    · -- The routine at `k` is a worker, so it is not the one with this message.
      obtain ⟨j, hj⟩ := List.mem_iff_getElem?.mp hr
      refine Or.inr (Or.inl ⟨urls, List.mem_of_getElem? (i := j) ?_, hu⟩)
      refine (List.getElem?_set_ne fun hkj => ?_).trans hj
      subst hkj
      rw [hk] at hj
      cases hj
    · exact Or.inr (Or.inr hu)
  | receive _ hurls hk =>
    rcases hu with hu | ⟨urls, hr, hu⟩ | ⟨urls, hsome, -⟩
    · exact Or.inl hu
    · obtain ⟨hlt, heq⟩ := List.getElem?_eq_some_iff.mp hk
      rcases List.mem_cons.mp ((List.getElem_cons_eraseIdx_perm hlt).mem_iff.mpr hr) with hr | hr
      · rw [heq] at hr
        cases hr
        exact Or.inr (Or.inr ⟨_, rfl, hu⟩)
      · exact Or.inr (Or.inl ⟨urls, hr, hu⟩)
    · rw [hurls] at hsome
      cases hsome
  | skip hurls hmem =>
    rcases hu with hu | hu | ⟨urls, hsome, hu⟩
    · exact Or.inl hu
    · exact Or.inr (Or.inl hu)
    · rw [hurls] at hsome
      cases hsome
      rcases List.mem_cons.mp hu with rfl | hu
      · exact Or.inl hmem
      · exact Or.inr (Or.inr ⟨_, rfl, hu⟩)
  | start hurls =>
    rcases hu with hu | ⟨urls, hr, hu⟩ | ⟨urls, hsome, hu⟩
    · exact Or.inl (Finset.mem_insert_of_mem hu)
    · exact Or.inr (Or.inl ⟨urls, List.mem_append_left _ hr, hu⟩)
    · rw [hurls] at hsome
      cases hsome
      rcases List.mem_cons.mp hu with rfl | hu
      · exact Or.inl (Finset.mem_insert_self _ _)
      · exact Or.inr (Or.inr ⟨_, rfl, hu⟩)
  | finish hurls =>
    rcases hu with hu | hu | ⟨urls, hsome, hu⟩
    · exact Or.inl hu
    · exact Or.inr (Or.inl hu)
    · rw [hurls] at hsome
      cases hsome
      cases hu

/-- What becomes known is a link of the page that a worker fetched. -/
theorem Stepped.known_inv (h : Stepped fetcher m a m') (hu : Known m' u) :
    Known m u ∨ ∃ url, .worker url ∈ m.routines ∧ u ∈ links fetcher url := by
  cases h with
  | @fetch k url hk =>
    rcases hu with hu | ⟨urls, hr, hu⟩ | hu
    · exact Or.inl (Or.inl hu)
    · rcases List.mem_or_eq_of_mem_set hr with hr | hr
      · exact Or.inl (Or.inr (Or.inl ⟨urls, hr, hu⟩))
      · cases hr
        exact Or.inr ⟨url, List.mem_of_getElem? hk, hu⟩
    · exact Or.inl (Or.inr (Or.inr hu))
  | receive _ _ hk =>
    refine Or.inl ?_
    rcases hu with hu | ⟨urls, hr, hu⟩ | ⟨urls, hsome, hu⟩
    · exact Or.inl hu
    · exact Or.inr (Or.inl ⟨urls, List.mem_of_mem_eraseIdx hr, hu⟩)
    · cases hsome
      exact Or.inr (Or.inl ⟨_, List.mem_of_getElem? hk, hu⟩)
  | skip hurls =>
    refine Or.inl ?_
    rcases hu with hu | hu | ⟨urls, hsome, hu⟩
    · exact Or.inl hu
    · exact Or.inr (Or.inl hu)
    · cases hsome
      exact Or.inr (Or.inr ⟨_, hurls, List.mem_cons_of_mem _ hu⟩)
  | start hurls =>
    refine Or.inl ?_
    rcases hu with hu | ⟨urls, hr, hu⟩ | ⟨urls, hsome, hu⟩
    · rcases Finset.mem_insert.mp hu with rfl | hu
      · exact Or.inr (Or.inr ⟨_, hurls, List.mem_cons_self⟩)
      · exact Or.inl hu
    · rcases List.mem_append.mp hr with hr | hr
      · exact Or.inr (Or.inl ⟨urls, hr, hu⟩)
      · cases List.mem_singleton.mp hr
    · cases hsome
      exact Or.inr (Or.inr ⟨_, hurls, List.mem_cons_of_mem _ hu⟩)
  | finish =>
    refine Or.inl ?_
    rcases hu with hu | hu | ⟨urls, hsome, hu⟩
    · exact Or.inl hu
    · exact Or.inr (Or.inl hu)
    · cases hsome

/-- A call of `Fetch` was there before, or its links are known from now on. -/
theorem Stepped.fetches (h : Stepped fetcher m a m') (hu : u ∈ m'.fetches) :
    u ∈ m.fetches ∨ ∀ v ∈ links fetcher u, Known m' v := by
  cases h with
  | @fetch k url hk =>
    rcases List.mem_append.mp hu with hu | hu
    · exact Or.inl hu
    · cases List.mem_singleton.mp hu
      refine Or.inr fun v hv => Or.inr (Or.inl ⟨_, ?_, hv⟩)
      exact List.mem_set (List.getElem?_eq_some_iff.mp hk).1 _
  | _ => exact Or.inl hu

end Known

/-! ### What holds along a run -/

/-- `n` counts the messages to come and the one in hand; every marked URL has one call of `Fetch`, made or to be made;
    the first URL and the links of every page that was fetched are known, and nothing is known that the first URL does
    not lead to. -/
structure Inv (fetcher : Fetcher) (url : String) (m : Master) : Prop where
  counted : m.returned = false → m.n = m.routines.length + m.urls.isSome.toNat ∧ 0 < m.n
  returned : m.returned = true → m.routines = [] ∧ m.urls = none
  once : m.calls.Nodup
  fetched : ∀ u, u ∈ m.fetched ↔ u ∈ m.calls
  root : Known m url
  covered : ∀ u ∈ m.fetches, ∀ v ∈ links fetcher u, Known m v
  reached : ∀ u, Known m u → Reaches (links fetcher) url u

section Inv
variable {fetcher : Fetcher} {url : String} {m m' : Master} {a : Action}

theorem inv_init (fetcher : Fetcher) (url : String) : Inv fetcher url (init url) where
  counted _ := ⟨rfl, Nat.one_pos⟩
  returned h := by cases h
  once := List.nodup_nil
  fetched u := by simp [init, Master.calls, waiting]
  root := Or.inr (Or.inl ⟨[url], List.mem_singleton_self _, List.mem_singleton_self _⟩)
  covered u hu := by cases hu
  reached u hu := by
    rcases hu with hu | ⟨urls, hmem, hu⟩ | ⟨urls, hurls, -⟩
    · cases hu
    · cases List.mem_singleton.mp hmem
      rw [List.mem_singleton.mp hu]
      exact .refl
    · cases hurls

/-- The master has not returned when it or a goroutine can still take a step. -/
theorem Inv.not_returned (h : Inv fetcher url m) (hs : Stepped fetcher m a m') : m.returned = false := by
  refine Bool.eq_false_iff.mpr fun hreturned => ?_
  obtain ⟨hnone, hurls⟩ := h.returned hreturned
  cases hs with
  | fetch hk =>
    rw [hnone] at hk
    cases hk
  | receive hno =>
    rw [hreturned] at hno
    cases hno
  | skip hsome =>
    rw [hurls] at hsome
    cases hsome
  | start hsome =>
    rw [hurls] at hsome
    cases hsome
  | finish hsome =>
    rw [hurls] at hsome
    cases hsome

theorem Inv.step_counted (h : Inv fetcher url m) (hs : Stepped fetcher m a m') :
    (m'.returned = false → m'.n = m'.routines.length + m'.urls.isSome.toNat ∧ 0 < m'.n) ∧
    (m'.returned = true → m'.routines = [] ∧ m'.urls = none) := by
  have hno := h.not_returned hs
  obtain ⟨hn, hpos⟩ := h.counted hno
  cases hs with
  | fetch =>
    refine ⟨fun _ => ⟨?_, hpos⟩, fun hyes => by simp [hno] at hyes⟩
    dsimp only
    rw [List.length_set]
    exact hn
  | receive _ hurls hk =>
    refine ⟨fun _ => ⟨?_, hpos⟩, fun hyes => by simp [hno] at hyes⟩
    have hlt := (List.getElem?_eq_some_iff.mp hk).1
    rw [hurls] at hn
    simp only [List.length_eraseIdx_of_lt hlt, Option.isSome_some, Bool.toNat_true]
    simp only [Option.isSome_none, Bool.toNat_false] at hn
    omega
  | skip hurls =>
    refine ⟨fun _ => ⟨?_, hpos⟩, fun hyes => by simp [hno] at hyes⟩
    rw [hurls] at hn
    exact hn
  | start hurls =>
    refine ⟨fun _ => ⟨?_, Nat.succ_pos _⟩, fun hyes => by simp [hno] at hyes⟩
    rw [hurls] at hn
    simp only [List.length_append, List.length_singleton, Option.isSome_some, Bool.toNat_true] at hn ⊢
    omega
  | finish hurls =>
    -- The message in hand is dealt with: what is left is what the goroutines still send.
    rw [hurls] at hn
    have hrest : m.n - 1 = m.routines.length := by
      simp only [Option.isSome_some, Bool.toNat_true] at hn
      omega
    refine ⟨fun hmore => ⟨hrest, Nat.pos_of_ne_zero ?_⟩, fun hdone => ⟨?_, rfl⟩⟩
    · exact of_decide_eq_false hmore
    · exact List.eq_nil_of_length_eq_zero (hrest.symm.trans (of_decide_eq_true hdone))

theorem Inv.step (h : Inv fetcher url m) (hs : Stepped fetcher m a m') : Inv fetcher url m' := by
  obtain ⟨hcounted, hreturned⟩ := h.step_counted hs
  refine ⟨hcounted, hreturned, ?_, fun u => ?_, hs.known h.root, fun u hu v hv => ?_, fun u hu => ?_⟩
  · rcases hs.calls with ⟨hperm, -⟩ | ⟨u, hnew, hperm, -⟩
    · exact hperm.nodup_iff.mpr h.once
    · exact hperm.nodup_iff.mpr (List.nodup_cons.mpr ⟨fun hu => hnew ((h.fetched u).mpr hu), h.once⟩)
  · rcases hs.calls with ⟨hperm, hsame⟩ | ⟨u', -, hperm, hinsert⟩
    · rw [hsame, hperm.mem_iff]
      exact h.fetched u
    · rw [hinsert, hperm.mem_iff, Finset.mem_insert, List.mem_cons, h.fetched u]
  · rcases hs.fetches hu with hu | hknown
    · exact hs.known (h.covered u hu v hv)
    · exact hknown v hv
  · rcases hs.known_inv hu with hu | ⟨url', hworker, hlink⟩
    · exact h.reached u hu
    · have hmarked := (h.fetched url').mpr (List.mem_append_right _ (mem_waiting.mpr hworker))
      exact .tail (h.reached url' (Or.inl hmarked)) hlink

theorem Reachable.inv (h : Reachable fetcher url m) : Inv fetcher url m :=
  Run.Steps.keeps (fun _ _ _ hi _ hs => hi.step (step_inv hs)) h (inv_init fetcher url)

/-- No goroutine waits for another one for ever: as long as the master has not returned, something can be done. -/
theorem Inv.possible (h : Inv fetcher url m) (hno : m.returned = false) :
    ∃ a m', Channel.step fetcher m a = some m' := by
  obtain ⟨hn, hpos⟩ := h.counted hno
  cases hurls : m.urls with
  | some urls =>
    cases urls with
    | nil => exact ⟨.next, m.finish, by simp only [Channel.step, hurls]⟩
    | cons u rest => exact ⟨.next, m.mark u rest, by simp only [Channel.step, hurls]⟩
  | none =>
    rw [hurls] at hn
    cases hroutines : m.routines with
    | nil =>
      rw [hroutines] at hn
      exact absurd hpos (hn ▸ Nat.lt_irrefl 0)
    | cons r rest =>
      have hk : m.routines[0]? = some r := by rw [hroutines]; rfl
      cases r with
      | worker url => exact ⟨.fetch 0, _, by simp only [Channel.step, hk]; rfl⟩
      | sending urls => exact ⟨.receive 0, _, by simp only [Channel.step, hno, hurls, hk]; rfl⟩

/-- When the master has returned, every URL that the first one leads to was fetched. -/
theorem Inv.complete (h : Inv fetcher url m) (hreturned : m.returned = true) (u : String) :
    u ∈ m.fetches ↔ Reaches (links fetcher) url u := by
  obtain ⟨hroutines, hurls⟩ := h.returned hreturned
  have hcalls : m.calls = m.fetches := by
    unfold Master.calls
    rw [hroutines]
    exact List.append_nil _
  have hknown : ∀ {v}, Known m v → v ∈ m.fetches := by
    rintro v (hv | ⟨urls, hr, -⟩ | ⟨urls, hsome, -⟩)
    · exact hcalls ▸ (h.fetched v).mp hv
    · rw [hroutines] at hr
      cases hr
    · rw [hurls] at hsome
      cases hsome
  constructor
  · intro hu
    exact h.reached u (Or.inl ((h.fetched u).mpr (hcalls.symm ▸ hu)))
  · intro hpath
    induction hpath with
    | refl => exact hknown h.root
    | tail _ hlink ih => exact hknown (h.covered _ ih _ hlink)

end Inv

/-! ### Every run ends -/

/-- The steps that a goroutine and its message still cost, those of the workers it leads to apart. -/
def Routine.steps (width : Nat) : Routine → Nat
  | .worker _ => width + 3
  | .sending urls => urls.length + 2

/-- A bound on the steps that are left. -/
def Master.left {fetcher : Fetcher} {url : String} (site : Site fetcher url) (m : Master) : Nat :=
  site.unmarked m.fetched * (site.width + 3) + total (Routine.steps site.width) m.routines +
    match m.urls with
    | none => 0
    | some urls => urls.length + 1

section Bound
variable {fetcher : Fetcher} {url : String} {m m' : Master} {a : Action}

theorem Inv.mem_pages (h : Inv fetcher url m) (site : Site fetcher url) {u : String} (hu : Known m u) :
    u ∈ site.pages := site.mem_of_reaches (h.reached u hu)

theorem Inv.left_lt (h : Inv fetcher url m) (site : Site fetcher url) (hs : Stepped fetcher m a m') :
    m'.left site < m.left site := by
  cases hs with
  | @fetch k u hk =>
    have hmarked := (h.fetched u).mpr (List.mem_append_right _ (mem_waiting.mpr (List.mem_of_getElem? hk)))
    have hwidth := site.width_le u (h.mem_pages site (Or.inl hmarked))
    have htotal := total_set_add (w := Routine.steps site.width) (.sending (links fetcher u)) hk
    simp only [Routine.steps] at htotal
    simp only [Master.left]
    omega
  | receive _ hurls hk =>
    have htotal := total_eraseIdx_add (w := Routine.steps site.width) hk
    simp only [Routine.steps] at htotal
    simp only [Master.left, hurls]
    omega
  | skip hurls =>
    simp only [Master.left, hurls, List.length_cons]
    omega
  | @start u rest hurls hnew =>
    -- The page that is marked now pays for its worker.
    have hpage := h.mem_pages site (Or.inr (Or.inr ⟨_, hurls, List.mem_cons_self⟩))
    have hless := site.unmarked_insert hpage hnew
    have htotal := total_concat (w := Routine.steps site.width) (.worker u) m.routines
    simp only [Routine.steps] at htotal
    simp only [Master.left, hurls, List.length_cons, htotal]
    rw [← hless, Nat.add_mul, Nat.one_mul]
    omega
  | finish hurls =>
    simp only [Master.left, Master.finish, hurls]
    omega

theorem left_init (site : Site fetcher url) : (init url).left site = site.pages.card * (site.width + 3) + 3 := by
  simp [Master.left, init, total, Routine.steps, Site.unmarked]

end Bound

end Channel

open Channel

/-- For every order in which the goroutines of `ConcurrentChannel` run on a finite site: no URL is fetched twice, and none
    that cannot be reached from `url`; as long as the master has not returned, some goroutine can go on, and the number
    of steps is bounded, so that the master does return; and when it has, all workers are through and have fetched the
    URLs that can be reached from `url`. -/
theorem ConcurrentChannel_correct {fetcher : Fetcher} {url : String} (site : Site fetcher url) {as : List Action}
    {m : Master} (h : Run.exec (step fetcher) (fun _ _ => True) (init url) as = some m) :
    as.length ≤ site.pages.card * (site.width + 3) + 3 ∧
    m.fetches.Nodup ∧ (∀ u ∈ m.fetches, Reaches (links fetcher) url u) ∧
    (m.returned = false → ∃ a m', step fetcher m a = some m') ∧
    (m.returned = true → m.routines = [] ∧ ∀ u, u ∈ m.fetches ↔ Reaches (links fetcher) url u) := by
  have hinv : Inv fetcher url m := Reachable.inv (Run.exec_steps h)
  refine ⟨?_, hinv.once.of_append_left, fun u hu => ?_, hinv.possible, fun hreturned => ?_⟩
  · refine Run.exec_length_le (I := fun k m => Inv fetcher url m ∧ m.left site = k) ?_
      ⟨inv_init fetcher url, left_init site⟩ h
    rintro k s s' a ⟨hs, rfl⟩ _ hstep
    exact ⟨_, hs.left_lt site (step_inv hstep), hs.step (step_inv hstep), rfl⟩
  · exact hinv.reached u (Or.inl ((hinv.fetched u).mpr (List.mem_append_left _ hu)))
  · exact ⟨(hinv.returned hreturned).1, hinv.complete hreturned⟩

/-- The crawl of `main`. The last worker that was started is the first to fetch and to send. -/
def golang : List Action :=
  [.receive 0, .next, .next, .fetch 0, .receive 0, .next, .next, .next, .fetch 1, .fetch 0, .receive 1, .next,
    .receive 0, .next, .next, .next, .next, .next, .fetch 1, .fetch 0, .receive 1, .next, .next, .next, .receive 0,
    .next, .next, .next]

theorem ConcurrentChannel_correct_golang : ∃ m : Master, m.returned = true ∧ m.fetches.length = 5 ∧
    m.fetches.Nodup ∧ ∀ u, u ∈ m.fetches ↔ Reaches (links Crawler.fetcher.fetch) "http://golang.org/" u := by
  obtain ⟨m, hm, h⟩ := Run.exec_any (step Crawler.fetcher.fetch) (fun _ _ => True) (init "http://golang.org/") golang
    (fun m => decide (m.returned = true ∧ m.fetches.length = 5)) (by decide +kernel)
  obtain ⟨hreturned, hlength⟩ := of_decide_eq_true h
  obtain ⟨-, honce, -, -, hall⟩ := ConcurrentChannel_correct (Crawler.fetcher.site "http://golang.org/") hm
  exact ⟨m, hreturned, hlength, honce, (hall hreturned).2⟩

end DistributedLabs.Crawler
