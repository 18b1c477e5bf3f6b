import DistributedLabs.Lib.Traversal

/-! The web crawlers of the notes: the fetcher that they share and the serial crawler. -/

namespace DistributedLabs.Crawler

open Traversal

/-! ### Fetchers -/

/-- `Fetch`: the URLs on a page, or `none` for an error. -/
abbrev Fetcher := String → Option (List String)

/-- The URLs that a crawler goes on to from a page. -/
def links (fetcher : Fetcher) (url : String) : List String := (fetcher url).getD []

/-- A finite set of pages that a crawl from `url` does not leave, with at most `width` links each. -/
structure Site (fetcher : Fetcher) (url : String) where
  pages : Finset String
  width : Nat
  root : url ∈ pages
  closed : ∀ u ∈ pages, ∀ v ∈ links fetcher u, v ∈ pages
  width_le : ∀ u ∈ pages, (links fetcher u).length ≤ width

namespace Site

variable {fetcher : Fetcher} {url u : String}

theorem mem_of_reaches (site : Site fetcher url) (h : Reaches (links fetcher) url u) : u ∈ site.pages := by
  induction h with
  | refl => exact site.root
  | tail _ hlink ih => exact site.closed _ ih _ hlink

/-- The number of pages that are not marked. -/
def unmarked (site : Site fetcher url) (fetched : Finset String) : Nat := (site.pages \ fetched).card

theorem unmarked_le (site : Site fetcher url) {fetched fetched' : Finset String} (h : fetched ⊆ fetched') :
    site.unmarked fetched' ≤ site.unmarked fetched :=
  Finset.card_le_card (Finset.sdiff_subset_sdiff (Finset.Subset.refl _) h)

theorem unmarked_insert (site : Site fetcher url) {fetched : Finset String} (hu : u ∈ site.pages) (hnew : u ∉ fetched) :
    site.unmarked (insert u fetched) + 1 = site.unmarked fetched := by
  unfold unmarked
  rw [Finset.sdiff_insert]
  exact Finset.card_erase_add_one (Finset.mem_sdiff.mpr ⟨hu, hnew⟩)

end Site

structure FakeResult where
  body : String
  urls : List String

/-- `fakeFetcher`: a map from URLs to canned results. -/
abbrev FakeFetcher := List (String × FakeResult)

namespace FakeFetcher

def fetch (f : FakeFetcher) : Fetcher := fun url => (f.find? fun page => page.1 = url).map fun page => page.2.urls

theorem fetch_inv {f : FakeFetcher} {url : String} : links f.fetch url = [] ∨ ∃ page ∈ f, links f.fetch url = page.2.urls := by
  unfold links fetch
  cases hpage : f.find? fun page => page.1 = url with
  | none => exact Or.inl rfl
  | some page => exact Or.inr ⟨page, List.mem_of_find?_eq_some hpage, rfl⟩

theorem length_urls_le {f : FakeFetcher} {page : String × FakeResult} (h : page ∈ f) :
    page.2.urls.length ≤ (f.flatMap fun page => page.2.urls).length := by
  obtain ⟨l, l', rfl⟩ := List.append_of_mem h
  rw [List.flatMap_append, List.flatMap_cons, List.length_append, List.length_append]
  omega

/-- The URLs of its results are all that a crawl with a fake fetcher can go on to. -/
def site (f : FakeFetcher) (url : String) : Site f.fetch url where
  pages := insert url (f.flatMap fun page => page.2.urls).toFinset
  width := (f.flatMap fun page => page.2.urls).length
  root := Finset.mem_insert_self _ _
  closed u _ v hv := by
    refine Finset.mem_insert_of_mem (List.mem_toFinset.mpr ?_)
    rcases fetch_inv with hnil | ⟨page, hpage, hlinks⟩
    · rw [hnil] at hv
      cases hv
    · exact List.mem_flatMap.mpr ⟨page, hpage, hlinks ▸ hv⟩
  width_le u _ := by
    rcases fetch_inv with hnil | ⟨page, hpage, hlinks⟩
    · rw [hnil]
      exact Nat.zero_le _
    · rw [hlinks]
      exact length_urls_le hpage

end FakeFetcher

/-- `fetcher`, the populated fake fetcher. -/
def fetcher : FakeFetcher :=
  [("http://golang.org/", ⟨"The Go Programming Language", ["http://golang.org/pkg/", "http://golang.org/cmd/"]⟩),
    ("http://golang.org/pkg/", ⟨"Packages", ["http://golang.org/", "http://golang.org/cmd/",
      "http://golang.org/pkg/fmt/", "http://golang.org/pkg/os/"]⟩),
    ("http://golang.org/pkg/fmt/", ⟨"Package fmt", ["http://golang.org/", "http://golang.org/pkg/"]⟩),
    ("http://golang.org/pkg/os/", ⟨"Package os", ["http://golang.org/", "http://golang.org/pkg/"]⟩)]

/-! ### `Serial` -/

/-- The map `fetched`, and the calls of `Fetch` in their order. -/
structure Crawl where
  fetched : Finset String
  fetches : List String

def Crawl.init : Crawl := ⟨∅, []⟩

/-- `Serial`, with a bound on the depth of its recursion. -/
def Serial (fetcher : Fetcher) : Nat → String → Crawl → Option Crawl
  | 0, _, _ => none
  | depth + 1, url, c =>
    if url ∈ c.fetched then some c
    else
      let c := { fetched := insert url c.fetched, fetches := c.fetches ++ [url] }
      match fetcher url with
      | none => some c
      | some urls => urls.foldlM (fun c u => Serial fetcher depth u c) c

section Serial
variable {fetcher : Fetcher} {depth : Nat} {url : String} {c c' : Crawl}

/-- A call marks the URL, and calls `Fetch` and goes on to the links of the page only if it was not marked. -/
theorem Serial_inv (h : Serial fetcher (depth + 1) url c = some c') : (url ∈ c.fetched ∧ c' = c) ∨
    (url ∉ c.fetched ∧ (links fetcher url).foldlM (fun c u => Serial fetcher depth u c)
      { fetched := insert url c.fetched, fetches := c.fetches ++ [url] } = some c') := by
  unfold Serial at h
  split at h
  · rename_i hmem
    cases h
    exact Or.inl ⟨hmem, rfl⟩
  · rename_i hmem
    refine Or.inr ⟨hmem, ?_⟩
    unfold links
    split at h
    · rename_i hnone
      rw [hnone]
      exact h
    · rename_i urls hsome
      rw [hsome]
      exact h

/-- What calls for `roots` do: they mark what can be reached, and fetch what they mark, once each. -/
structure Crawls (fetcher : Fetcher) (roots : List String) (c c' : Crawl) : Prop where
  explores : Explores (links fetcher) roots c.fetched c'.fetched
  fetches : ∃ new, c'.fetches = c.fetches ++ new ∧ new.Nodup ∧ ∀ u, u ∈ new ↔ u ∈ c'.fetched ∧ u ∉ c.fetched

namespace Crawls

theorem nil (c : Crawl) : Crawls fetcher [] c c where
  explores := .nil c.fetched
  fetches := ⟨[], by simp⟩

theorem append {roots roots' : List String} {c'' : Crawl} (h : Crawls fetcher roots c c')
    (h' : Crawls fetcher roots' c' c'') : Crawls fetcher (roots ++ roots') c c'' where
  explores := h.explores.append h'.explores
  fetches := by
    obtain ⟨new, heq, hnodup, hmem⟩ := h.fetches
    obtain ⟨new', heq', hnodup', hmem'⟩ := h'.fetches
    refine ⟨new ++ new', by rw [heq', heq, List.append_assoc], List.nodup_append.mpr ⟨hnodup, hnodup', ?_⟩, fun u => ?_⟩
    · rintro u hu _ hu' rfl
      exact ((hmem' u).mp hu').2 ((hmem u).mp hu).1
    · rw [List.mem_append, hmem, hmem']
      constructor
      · rintro (⟨hu, hno⟩ | ⟨hu, hno⟩)
        · exact ⟨h'.explores.subset hu, hno⟩
        · exact ⟨hu, fun hold => hno (h.explores.subset hold)⟩
      · rintro ⟨hu, hno⟩
        by_cases hmid : u ∈ c'.fetched
        · exact Or.inl ⟨hmid, hno⟩
        · exact Or.inr ⟨hu, hmid⟩

/-- A page that is not marked yet is marked and fetched, and then come the calls for its links. -/
theorem enter (hnew : url ∉ c.fetched)
    (h : Crawls fetcher (links fetcher url) ⟨insert url c.fetched, c.fetches ++ [url]⟩ c') :
    Crawls fetcher [url] c c' where
  explores := h.explores.enter
  fetches := by
    obtain ⟨new, heq, hnodup, hmem⟩ := h.fetches
    have hurl : url ∉ new := fun hu => ((hmem url).mp hu).2 (Finset.mem_insert_self _ _)
    refine ⟨url :: new, by rw [heq, List.append_assoc]; rfl, List.nodup_cons.mpr ⟨hurl, hnodup⟩, fun u => ?_⟩
    rw [List.mem_cons, hmem, Finset.mem_insert, not_or]
    constructor
    · rintro (rfl | ⟨hu, -, hno⟩)
      · exact ⟨h.explores.subset (Finset.mem_insert_self _ _), hnew⟩
      · exact ⟨hu, hno⟩
    · rintro ⟨hu, hno⟩
      by_cases heq : u = url
      · exact Or.inl heq
      · exact Or.inr ⟨hu, heq, hno⟩

end Crawls

theorem Serial_crawls (h : Serial fetcher depth url c = some c') : Crawls fetcher [url] c c' := by
  induction depth generalizing url c c' with
  | zero => cases h
  | succ depth ih =>
    rcases Serial_inv h with ⟨hmem, rfl⟩ | ⟨hnew, hloop⟩
    · exact ⟨.marked hmem, [], by simp⟩
    · exact .enter hnew (foldlM_compose .nil .append ih hloop)

/-- A depth of the number of pages that are not marked suffices. -/
theorem Serial_returns (site : Site fetcher url) {u : String} (hu : u ∈ site.pages)
    (hdepth : site.unmarked c.fetched < depth) :
    ∃ c', Serial fetcher depth u c = some c' ∧ c.fetched ⊆ c'.fetched := by
  induction depth generalizing u c with
  | zero => exact absurd hdepth (Nat.not_lt_zero _)
  | succ depth ih =>
    unfold Serial
    split
    · exact ⟨c, rfl, Finset.Subset.refl _⟩
    · rename_i hnew
      have hless := site.unmarked_insert hu hnew
      cases hfetch : fetcher u with
      | none => exact ⟨_, rfl, Finset.subset_insert _ _⟩
      | some urls =>
        have hround : ∀ d, ∀ v ∈ urls, insert u c.fetched ⊆ d.fetched →
            ∃ d', Serial fetcher depth v d = some d' ∧ insert u c.fetched ⊆ d'.fetched := by
          intro d v hv hsub
          have hpage : v ∈ site.pages := site.closed u hu v (by unfold links; rw [hfetch]; exact hv)
          have hcard := site.unmarked_le hsub
          obtain ⟨d', hd', hsub'⟩ := ih (c := d) hpage (by omega)
          exact ⟨d', hd', hsub.trans hsub'⟩
        obtain ⟨c', hc', hsub⟩ := foldlM_total_of_mem (s := ⟨insert u c.fetched, c.fetches ++ [u]⟩) hround
          (Finset.Subset.refl _)
        exact ⟨c', hc', (Finset.subset_insert _ _).trans hsub⟩

/-- On a finite site `Serial` returns, and it has called `Fetch` for the URLs that can be reached from `url`, once for
    each, and for no others. -/
theorem Serial_correct (site : Site fetcher url) {depth : Nat} (hdepth : site.pages.card < depth) :
    ∃ c, Serial fetcher depth url .init = some c ∧ c.fetches.Nodup ∧
      ∀ u, u ∈ c.fetches ↔ Reaches (links fetcher) url u := by
  obtain ⟨c, hc, -⟩ := Serial_returns (c := .init) site site.root (by simpa [Crawl.init, Site.unmarked] using hdepth)
  have hcrawls := Serial_crawls hc
  obtain ⟨new, heq, hnodup, hmem⟩ := hcrawls.fetches
  have heq : c.fetches = new := heq
  refine ⟨c, hc, heq ▸ hnodup, fun u => ?_⟩
  rw [heq, hmem, hcrawls.explores.mem_iff]
  constructor
  · rintro ⟨⟨r, hr, hpath⟩, -⟩
    rw [List.mem_singleton.mp hr] at hpath
    exact hpath
  · intro hpath
    exact ⟨⟨url, List.mem_singleton_self url, hpath⟩, Finset.notMem_empty u⟩

theorem Serial_correct_golang : ∃ c, Serial Crawler.fetcher.fetch 6 "http://golang.org/" .init = some c ∧
    c.fetches.Nodup ∧ ∀ u, u ∈ c.fetches ↔ Reaches (links Crawler.fetcher.fetch) "http://golang.org/" u :=
  Serial_correct (Crawler.fetcher.site "http://golang.org/") (by decide +kernel)

end Serial

end DistributedLabs.Crawler
