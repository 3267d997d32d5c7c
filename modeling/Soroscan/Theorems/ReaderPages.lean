import Soroscan.CursorPages
import Soroscan.Lib.Tiling
import Soroscan.Theorems.ArchiveWalk

/-!
# The pages a reader walks through

A reader goes back and forth through the pages of a list, while the list grows. The pages that lead to the one on the screen tile the
list: nothing is shown twice, and nothing that was there at first is left out, from the top or, where the list came in the place of
another one, from the token that this was read down to. For a list that keeps the page before on the screen this holds as long as
`Next page` is not clicked on that page a second time.
-/

namespace Soroscan

namespace CursorPages

section

variable {φ τ ι : Type}

/-- The visited cursors, and for each of them that is not inherited a page that was shown behind the one before and led to it. -/
inductive Path (pageSize : Nat) (shown : Option τ → PageData τ ι → Prop) (inherited : List τ) : List τ → List (PageData τ ι) → Prop
  | nil : Path pageSize shown inherited inherited []
  | snoc {visited : List τ} {pages : List (PageData τ ι)} {page : PageData τ ι} {token : τ}
      (hpath : Path pageSize shown inherited visited pages) (hshown : shown visited.getLast? page)
      (htoken : nextToken pageSize page = some token) : Path pageSize shown inherited (visited ++ [token]) (pages ++ [page])

/-- One page back, which may be to an inherited cursor. -/
theorem Path.dropLast {pageSize : Nat} {shown : Option τ → PageData τ ι → Prop} {inherited visited : List τ}
    {pages : List (PageData τ ι)} (h : Path pageSize shown inherited visited pages) :
    Path pageSize shown (if pages.isEmpty then inherited.dropLast else inherited) visited.dropLast pages.dropLast := by
  cases h with
  | nil => exact .nil
  | @snoc visited pages page token hpath _ _ =>
    have hnonempty : (pages ++ [page]).isEmpty = false := List.isEmpty_eq_false_iff.mpr (List.concat_ne_nil page pages)
    rw [List.dropLast_concat, List.dropLast_concat, hnonempty, if_neg Bool.false_ne_true]
    exact hpath

namespace Reader

variable {kind : ListKind} {answer : Nat → Key φ τ → Option (PageData τ ι)}

/-- Every cached page was answered to its query, and so was every page of the list that the reader left for a visited cursor. -/
structure Sound (kind : ListKind) (answer : Nat → Key φ τ → Option (PageData τ ι)) (s : Reader φ τ ι) : Prop where
  cache : ∀ key page, s.cache key = some page → ∃ i, answer i key = some page
  path : Path kind.pageSize (fun cursor page => ∃ i, answer i (s.filter, cursor) = some page) s.inherited s.visited s.trail

/-- `Next page` is only clicked on the page of the query, and the list stays in its place. -/
def Clear (s : Reader φ τ ι) : Event φ τ → Prop
  | .next => s.isPlaceholderData = false
  | .switches _ => False
  | _ => True

theorem sound_opened (kind : ListKind) (answer : Nat → Key φ τ → Option (PageData τ ι)) (filter : φ) :
    (opened filter : Reader φ τ ι).Sound kind answer := by
  refine ⟨fun key page hcache => ?_, .nil⟩
  cases hcache

/-- What is on the screen and no placeholder is the cached page. -/
theorem cache_of_controls {s : Reader φ τ ι} {page : PageData τ ι} (h : s.controls kind = some page)
    (hclear : s.isPlaceholderData = false) : s.cache s.key = some page := by
  obtain ⟨hdata, -⟩ := Option.filter_eq_some_iff.mp h
  unfold data at hdata
  split_ifs at hdata
  · unfold isPlaceholderData at hclear
    cases hcache : s.cache s.key with
    | none => simp [hcache] at hclear
    | some page' =>
      rw [hcache] at hdata
      exact hdata
  · rw [Option.or_none] at hdata
    exact hdata

/-- A list that is not drawn with the page before has no placeholder on the screen. -/
theorem clear_of_not_keepPrevious (hkind : kind.keepPrevious = false) {s : Reader φ τ ι} {page : PageData τ ι}
    (h : s.controls kind = some page) : s.isPlaceholderData = false := by
  obtain ⟨hdata, -⟩ := Option.filter_eq_some_iff.mp h
  unfold data at hdata
  split_ifs at hdata with hfailed hkeep
  · rw [hkind] at hkeep
    cases hkeep
  · rw [Option.or_none] at hdata
    rw [isPlaceholderData, hdata]
    rfl

variable [DecidableEq φ] [DecidableEq τ]

/-- Every event keeps the pages those of their queries. -/
theorem sound_step {s s' : Reader φ τ ι} {e : Event φ τ} (h : s.Sound kind answer)
    (hclear : kind.keepPrevious = false ∨ s.Clear e) (hstep : step kind answer s e = some s') : s'.Sound kind answer := by
  cases e with
  | next =>
    obtain ⟨s₁, hnext, rfl⟩ := Option.map_eq_some_iff.mp hstep
    obtain ⟨page, hpage, hnext⟩ := Option.bind_eq_some_iff.mp hnext
    obtain ⟨token, htoken, rfl⟩ := Option.map_eq_some_iff.mp hnext
    have hown : s.isPlaceholderData = false := hclear.elim (fun hkind => clear_of_not_keepPrevious hkind hpage) id
    exact ⟨h.cache, .snoc h.path (h.cache _ _ (cache_of_controls hpage hown)) htoken⟩
  | back =>
    obtain ⟨s₁, hback, rfl⟩ := Option.map_eq_some_iff.mp hstep
    unfold back at hback
    split at hback
    · cases hback
    · cases hback
      exact ⟨h.cache, h.path.dropLast⟩
  | reset =>
    obtain ⟨s₁, hreset, rfl⟩ := Option.map_eq_some_iff.mp hstep
    unfold reset at hreset
    split_ifs at hreset
    cases hreset
    exact ⟨h.cache, .nil⟩
  | filters filter =>
    cases hstep
    exact ⟨h.cache, .nil⟩
  | switches filter =>
    cases hstep
    exact ⟨h.cache, .nil⟩
  | arrives key moment =>
    obtain ⟨page, hpage, rfl⟩ := Option.map_eq_some_iff.mp hstep
    refine ⟨fun key' page' hcache => ?_, h.path⟩
    change Function.update s.cache key (some page) key' = some page' at hcache
    rcases eq_or_ne key' key with rfl | hne
    · rw [Function.update_self] at hcache
      cases hcache
      exact ⟨moment, hpage⟩
    · rw [Function.update_of_ne hne] at hcache
      exact h.cache key' page' hcache
  | fails key =>
    cases hstep
    exact ⟨h.cache, h.path⟩
  | retries key =>
    cases hstep
    exact ⟨h.cache, h.path⟩
  | evicts key =>
    cases hstep
    refine ⟨fun key' page' hcache => ?_, h.path⟩
    change Function.update s.cache key none key' = some page' at hcache
    rcases eq_or_ne key' key with rfl | hne
    · rw [Function.update_self] at hcache
      cases hcache
    · rw [Function.update_of_ne hne] at hcache
      exact h.cache key' page' hcache

/-- In every state of a run the pages are those of their queries. -/
theorem sound_of_run {filter : φ} {es : List (Event φ τ)} (hclear : EachStep (step kind answer) Clear (opened filter) es)
    {s : Reader φ τ ι} (hs : s ∈ states (step kind answer) (opened filter) es) : s.Sound kind answer :=
  EachStep.invariant (fun _ _ _ h hc hstep => sound_step h (Or.inr hc) hstep) (sound_opened kind answer filter) hclear s hs

/-- A list that is not drawn with the page before needs no care. -/
theorem sound_of_not_keepPrevious (hkind : kind.keepPrevious = false) {filter : φ} {es : List (Event φ τ)} {s : Reader φ τ ι}
    (hs : s ∈ states (step kind answer) (opened filter) es) : s.Sound kind answer :=
  states_invariant (fun _ _ _ h hstep => sound_step h (Or.inl hkind) hstep) (sound_opened kind answer filter) es s hs

/-! ### Without controls -/

/-- The list stays what it is. -/
def Stays (_ : Reader φ τ ι) : Event φ τ → Prop
  | .filters _ => False
  | .switches _ => False
  | _ => True

omit [DecidableEq φ] [DecidableEq τ] in
/-- An empty page may have no controls. -/
theorem controls_of_empty (hkeep : kind.keepPrevious = false) (hdraws : kind.drawsEmpty = false) {s : Reader φ τ ι} {key : Key φ τ}
    (hkey : s.key = key) (hempty : ∀ page, s.cache key = some page → page.items = []) : s.controls kind = none := by
  cases hpage : s.controls kind with
  | none => rfl
  | some page =>
    have hcache := cache_of_controls hpage (clear_of_not_keepPrevious hkeep hpage)
    rw [hkey] at hcache
    have hdrawn := (Option.filter_eq_some_iff.mp hpage).2
    rw [hdraws, hempty page hcache] at hdrawn
    cases hdrawn

/-- A list whose pages have no controls while they are empty: where every answer is empty, no click leads away. -/
theorem stuck_step (hkeep : kind.keepPrevious = false) (hdraws : kind.drawsEmpty = false) {key : Key φ τ}
    (hempty : ∀ i page, answer i key = some page → page.items = []) {s s' : Reader φ τ ι} {e : Event φ τ}
    (h : s.key = key ∧ ∀ page, s.cache key = some page → page.items = []) (hstays : s.Stays e)
    (hstep : step kind answer s e = some s') : s'.key = key ∧ ∀ page, s'.cache key = some page → page.items = [] := by
  have hcontrols := controls_of_empty hkeep hdraws h.1 h.2
  cases e with
  | next =>
    rw [step, next, hcontrols] at hstep
    cases hstep
  | back =>
    rw [step, back, hcontrols, Option.isNone_none, Bool.or_true, if_pos rfl] at hstep
    cases hstep
  | reset =>
    rw [step, reset, hcontrols, Option.isNone_none, Bool.or_true, if_pos rfl] at hstep
    cases hstep
  | filters filter => exact hstays.elim
  | switches filter => exact hstays.elim
  | arrives key' moment =>
    obtain ⟨page, hpage, rfl⟩ := Option.map_eq_some_iff.mp hstep
    refine ⟨h.1, fun page' hcache => ?_⟩
    change Function.update s.cache key' (some page) key = some page' at hcache
    rcases eq_or_ne key key' with rfl | hne
    · rw [Function.update_self] at hcache
      cases hcache
      exact hempty moment page hpage
    · rw [Function.update_of_ne hne] at hcache
      exact h.2 page' hcache
  | fails key' =>
    cases hstep
    exact h
  | retries key' =>
    cases hstep
    exact h
  | evicts key' =>
    cases hstep
    refine ⟨h.1, fun page' hcache => ?_⟩
    change Function.update s.cache key' none key = some page' at hcache
    rcases eq_or_ne key key' with rfl | hne
    · rw [Function.update_self] at hcache
      cases hcache
    · rw [Function.update_of_ne hne] at hcache
      exact h.2 page' hcache

end Reader

/-! ## Tiles -/

section

variable {P : Type} [LinearOrder P]

/-- What a cursor is below. -/
def topOf (bound : τ → P) : Option τ → WithTop P
  | some token => (bound token : WithTop P)
  | none => ⊤

/-- Every page is a slice of the list: the rows below its cursor, down to the token that leads on, or to the end. -/
structure Sliced (pageSize : Nat) (answers : Option τ → PageData τ ι → Prop) (valid : Option τ → Prop) (first known : Set P)
    (position : ι → P) (bound : τ → P) : Prop where
  slice : ∀ cursor page, valid cursor → answers cursor page →
    Slice first known (topOf bound cursor) ((nextToken pageSize page).map bound) (page.items.map position)
  next : ∀ cursor page, valid cursor → answers cursor page → ∀ token, nextToken pageSize page = some token → valid (some token)

/-- The positions of the rows of pages. -/
def positions (position : ι → P) (pages : List (PageData τ ι)) : List P := (pages.flatMap PageData.items).map position

variable {pageSize : Nat} {answers : Option τ → PageData τ ι → Prop} {valid : Option τ → Prop} {first known : Set P}
  {position : ι → P} {bound : τ → P} {inherited : List τ}

/-- Every page on the way to a cursor is behind a valid one, and so is the next page. -/
theorem Path.behind {visited : List τ} {pages : List (PageData τ ι)} (h : Path pageSize answers inherited visited pages)
    (hsliced : Sliced pageSize answers valid first known position bound) (hstart : valid inherited.getLast?) :
    valid visited.getLast? ∧ ∀ page ∈ pages, ∃ cursor, valid cursor ∧ answers cursor page := by
  induction h with
  | nil => exact ⟨hstart, fun page hpage => nomatch hpage⟩
  | @snoc visited pages page token _ hshown htoken ih =>
    obtain ⟨hvalid, hpages⟩ := ih
    rw [List.getLast?_concat]
    refine ⟨hsliced.next _ _ hvalid hshown _ htoken, fun page' hpage => ?_⟩
    rcases List.mem_append.mp hpage with hpage | hpage
    · exact hpages page' hpage
    · rw [List.mem_singleton.mp hpage]
      exact ⟨_, hvalid, hshown⟩

omit [LinearOrder P] in
theorem positions_concat (pages : List (PageData τ ι)) (page : PageData τ ι) :
    positions position (pages ++ [page]) = positions position pages ++ page.items.map position := by
  rw [positions, positions, List.flatMap_append, List.map_append, List.flatMap_singleton]

/-- The pages on the way to a cursor tile the list above it, down from the last cursor that was inherited. -/
theorem Path.tiles {visited : List τ} {pages : List (PageData τ ι)} (h : Path pageSize answers inherited visited pages)
    (hsliced : Sliced pageSize answers valid first known position bound) (hstart : valid inherited.getLast?) :
    Tiles first known (topOf bound inherited.getLast?) (topOf bound visited.getLast?) (positions position pages) := by
  induction h with
  | nil => exact .start
  | @snoc visited pages page token hpath hshown htoken ih =>
    have hslice := hsliced.slice _ _ (hpath.behind hsliced hstart).1 hshown
    rw [htoken, Option.map_some] at hslice
    rw [List.getLast?_concat, positions_concat]
    exact .slice ih hslice

/-- The pages a reader has been shown on the way to the one on the screen, and this one. -/
def Reader.shown (s : Reader φ τ ι) : List (PageData τ ι) := s.trail ++ (s.cache s.key).toList

/-- What the pages of a reader come to: rows that descend, all of them of the list and below the cursors that were inherited, and
among them every first one down to the bound of the page on the screen, or every first one at all if this has no next page. -/
structure Reader.Tiled (kind : ListKind) (first known : Set P) (position : ι → P) (bound : τ → P) (s : Reader φ τ ι) : Prop where
  descends : (positions position s.shown).Pairwise fun p q => q < p
  known : ∀ p ∈ positions position s.shown, p ∈ known
  below : ∀ p ∈ positions position s.shown, (p : WithTop P) < topOf bound s.inherited.getLast?
  all : ∀ page, s.cache s.key = some page → ∀ p ∈ first, (p : WithTop P) < topOf bound s.inherited.getLast? →
    (∀ token, nextToken kind.pageSize page = some token → bound token ≤ p) → p ∈ positions position s.shown

section

variable {kind : ListKind} {answer : Nat → Key φ τ → Option (PageData τ ι)} {s : Reader φ τ ι}

/-- Every page that is shown was answered to a request with a valid cursor. -/
theorem Reader.Sound.answered (h : s.Sound kind answer)
    (hsliced : Sliced kind.pageSize (fun cursor page => ∃ i, answer i (s.filter, cursor) = some page) valid first known position bound)
    (hstart : valid s.inherited.getLast?) :
    ∀ page ∈ s.shown, ∃ cursor, valid cursor ∧ ∃ i, answer i (s.filter, cursor) = some page := by
  intro page hpage
  obtain ⟨hvalid, hpages⟩ := h.path.behind hsliced hstart
  rcases List.mem_append.mp hpage with hpage | hpage
  · exact hpages page hpage
  · exact ⟨_, hvalid, h.cache _ _ (Option.mem_toList.mp hpage)⟩

/-- Where every page is a slice, the pages of a reader tile the list. -/
theorem Reader.Sound.tiled (h : s.Sound kind answer)
    (hsliced : Sliced kind.pageSize (fun cursor page => ∃ i, answer i (s.filter, cursor) = some page) valid first known position bound)
    (hstart : valid s.inherited.getLast?) : s.Tiled kind first known position bound := by
  have htiles := h.path.tiles hsliced hstart
  cases hcache : s.cache s.key with
  | none =>
    have hshown : s.shown = s.trail := by
      rw [shown, hcache, Option.toList_none, List.append_nil]
    refine ⟨?_, ?_, ?_, fun page hpage => ?_⟩
    · rw [hshown]
      exact htiles.descends
    · rw [hshown]
      exact htiles.held
    · rw [hshown]
      exact htiles.lt_start
    · rw [hcache] at hpage
      cases hpage
  | some page =>
    have hslice := hsliced.slice _ page (h.path.behind hsliced hstart).1 (h.cache _ _ hcache)
    have hshown : positions position s.shown = positions position s.trail ++ page.items.map position := by
      rw [shown, hcache, Option.toList_some, positions_concat]
    refine ⟨?_, ?_, ?_, fun page' hpage p hp hbelow hbound => ?_⟩
    · rw [hshown]
      exact htiles.descends_append htiles.descends hslice
    · rw [hshown]
      intro p hp
      exact (List.mem_append.mp hp).elim (htiles.held p) (hslice.held p)
    · rw [hshown]
      intro p hp
      exact (List.mem_append.mp hp).elim (htiles.lt_start p) fun hp => lt_of_lt_of_le (hslice.below p hp) htiles.bound_le
    · obtain rfl : page = page' := Option.some.inj (hcache.symm.trans hpage)
      rw [hshown]
      refine htiles.all_append hslice p hp hbelow fun b hb => ?_
      obtain ⟨token, htoken, rfl⟩ := Option.map_eq_some_iff.mp hb
      exact hbound token htoken

end

end

end

end CursorPages

end Soroscan
