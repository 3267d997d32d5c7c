import Soroscan.Theorems.LedgerActivity
import Soroscan.Theorems.ReaderPages

/-!
# The history of an account, page by page

Horizon answers with the operations below a cursor, newest first, and does not say whether there are more: a full page is the only hint.
The list of an account's history never draws a page in the place of another one, so its pages tile the history in every run. But where
another account comes in its place it keeps the cursor, and leaves out what that account has above it. And an empty page has no
controls, while behind a last page that is full there is one.
-/

namespace Soroscan

section

variable {Token Detail : Type}

/-- The last entry ends with the last record. -/
theorem getLast?_groupByTransaction (records : List (OperationRecord Token Detail)) :
    (groupByTransaction records).getLast?.map HistoryEntry.lastToken = records.getLast?.map OperationRecord.pagingToken := by
  induction records using List.reverseRecOn with
  | nil => rfl
  | append_singleton records record ih =>
    rw [groupByTransaction, List.foldl_concat, List.getLast?_concat, groupRecord]
    split
    · split_ifs <;> rw [List.getLast?_concat] <;> rfl
    · rw [List.getLast?_concat]
      rfl

end

namespace CursorPages

section

variable {Token Detail : Type} [LinearOrder Token]

/-- The operations of an account, at each moment: newest first, and none is ever taken back. -/
structure AccountFeed (Token Detail : Type) [LinearOrder Token] where
  records : Nat → List (OperationRecord Token Detail)
  descending : ∀ i, Descending OperationRecord.pagingToken (records i)
  grows : ∀ i, records i ⊆ records (i + 1)

/-- What Horizon answers for an account at a moment, if it answers: of the operations below the cursor the newest ones, newest first,
and at most `limit`. -/
structure AnswersHistory (feed : AccountFeed Token Detail)
    (fetch : Nat → Nat → Option Token → Option (List (OperationRecord Token Detail))) : Prop where
  held : ∀ i limit cursor page, fetch i limit cursor = some page → ∀ r ∈ page, r ∈ feed.records i ∧ ∀ c ∈ cursor, r.pagingToken < c
  descending : ∀ i limit cursor page, fetch i limit cursor = some page → Descending OperationRecord.pagingToken page
  atMost : ∀ i limit cursor page, fetch i limit cursor = some page → page.length ≤ limit
  newest : ∀ i limit cursor page, fetch i limit cursor = some page → ∀ r ∈ feed.records i, (∀ c ∈ cursor, r.pagingToken < c) →
    r ∈ page ∨ limit ≤ page.length ∧ ∀ r' ∈ page, r.pagingToken < r'.pagingToken

theorem AccountFeed.first_subset (feed : AccountFeed Token Detail) (i : Nat) : feed.records 0 ⊆ feed.records i := by
  induction i with
  | zero => exact List.Subset.refl _
  | succ i ih => exact List.Subset.trans ih (feed.grows i)

/-- What was there at one moment, and has the token of what was there at another, is the same operation. -/
theorem AccountFeed.unique (feed : AccountFeed Token Detail) {i j : Nat} {r r' : OperationRecord Token Detail}
    (hr : r ∈ feed.records i) (hr' : r' ∈ feed.records j) (htoken : r.pagingToken = r'.pagingToken) : r = r' := by
  have hsubset : ∀ i k, feed.records i ⊆ feed.records (i + k) := by
    intro i k
    induction k with
    | zero => exact List.Subset.refl _
    | succ k ih => exact List.Subset.trans ih (feed.grows (i + k))
  have hmem : r ∈ feed.records (i + j) := hsubset i j hr
  have hmem' : r' ∈ feed.records (i + j) := Nat.add_comm i j ▸ hsubset j i hr'
  exact (feed.descending (i + j)).eq_of_key_eq hmem hmem' htoken

omit [LinearOrder Token] in
/-- The button leads behind the last operation of a full page. -/
theorem nextToken_accountHistoryData (records : List (OperationRecord Token Detail)) :
    nextToken historyPage (accountHistoryData records) =
      if records.length = historyPage then records.getLast?.map OperationRecord.pagingToken else none := by
  rw [nextToken, hasMore, accountHistoryData, getLast?_groupByTransaction]
  simp only [Option.getD_none, Bool.and_eq_true, decide_eq_true_eq]
  by_cases hfull : records.length = historyPage
  · rw [if_pos hfull]
    cases records.getLast? <;> simp [hfull]
  · rw [if_neg hfull, if_neg fun h => hfull h.1]

theorem lt_topOf_iff {cursor : Option Token} {token : Token} :
    (token : WithTop Token) < topOf id cursor ↔ ∀ c ∈ cursor, token < c := by
  cases cursor with
  | none => exact iff_of_true (WithTop.coe_lt_top _) nofun
  | some c => simp [topOf]

/-- The operations that an account had at a moment. -/
def AccountFeed.tokens (feed : AccountFeed Token Detail) (i : Nat) : Set Token :=
  {token | ∃ r ∈ feed.records i, r.pagingToken = token}

/-- Every page of an account's history is a slice of it. -/
theorem AnswersHistory.slice {feed : AccountFeed Token Detail}
    {fetch : Nat → Nat → Option Token → Option (List (OperationRecord Token Detail))} (h : AnswersHistory feed fetch) {i : Nat}
    {cursor : Option Token} {page : List (OperationRecord Token Detail)} (hpage : fetch i historyPage cursor = some page) :
    Slice (feed.tokens i) (feed.tokens i) (topOf id cursor) ((nextToken historyPage (accountHistoryData page)).map id)
      (page.map OperationRecord.pagingToken) := by
  have hheld := h.held i historyPage cursor page hpage
  have hdescending := h.descending i historyPage cursor page hpage
  rw [nextToken_accountHistoryData, Option.map_id, id]
  have hbottom : ∀ b, b ∈ (if page.length = historyPage then page.getLast?.map OperationRecord.pagingToken else none) →
      ∃ last, page.getLast? = some last ∧ last.pagingToken = b := by
    intro b hb
    split_ifs at hb
    · exact Option.map_eq_some_iff.mp hb
    · cases hb
  refine ⟨List.pairwise_map.mpr hdescending, ?_, ?_, ?_, ?_, ?_⟩
  · intro p hp
    obtain ⟨r, hr, rfl⟩ := List.mem_map.mp hp
    exact ⟨r, (hheld r hr).1, rfl⟩
  · intro p hp
    obtain ⟨r, hr, rfl⟩ := List.mem_map.mp hp
    exact lt_topOf_iff.mpr (hheld r hr).2
  · intro b hb p hp
    obtain ⟨r, hr, rfl⟩ := List.mem_map.mp hp
    obtain ⟨last, hlast, rfl⟩ := hbottom b hb
    exact hdescending.getLast_le hlast hr
  · intro b hb
    obtain ⟨last, hlast, rfl⟩ := hbottom b hb
    exact lt_topOf_iff.mpr (hheld last (List.mem_of_getLast? hlast)).2
  · rintro p ⟨r, hr, rfl⟩ hbelow habove
    refine List.mem_map_of_mem ?_
    rcases h.newest i historyPage cursor page hpage r hr (lt_topOf_iff.mp hbelow) with hmem | ⟨hfull, hnewer⟩
    · exact hmem
    · -- a page that leaves out an operation is full, and ends above it
      have hlength : page.length = historyPage := Nat.le_antisymm (h.atMost i historyPage cursor page hpage) hfull
      obtain ⟨last, hlast⟩ : ∃ last, page.getLast? = some last := by
        refine Option.ne_none_iff_exists'.mp fun hnone => ?_
        rw [List.getLast?_eq_none_iff.mp hnone] at hlength
        cases hlength
      have hle : last.pagingToken ≤ r.pagingToken := habove _ (by rw [if_pos hlength, hlast]; rfl)
      exact absurd (hnewer last (List.mem_of_getLast? hlast)) (not_lt.mpr hle)

/-- What the pages of an account's history come to, from the top or from the cursor that was inherited. -/
structure HistoryShown (feed : AccountFeed Token Detail) (s : Reader Text Token (OperationRecord Token Detail)) : Prop where
  descending : Descending OperationRecord.pagingToken (s.shown.flatMap PageData.items)
  held : ∀ r ∈ s.shown.flatMap PageData.items, ∃ j, r ∈ feed.records j
  below : ∀ r ∈ s.shown.flatMap PageData.items, ∀ c ∈ s.inherited.getLast?, r.pagingToken < c
  all : ∀ page, s.cache s.key = some page → ∀ r ∈ feed.records 0, (∀ c ∈ s.inherited.getLast?, r.pagingToken < c) →
    (∀ token, nextToken historyPage page = some token → token ≤ r.pagingToken) → r ∈ s.shown.flatMap PageData.items

section

variable {feeds : Text → AccountFeed Token Detail}
  {fetchAccountOperations : Nat → Text → Nat → Option Token → Option (List (OperationRecord Token Detail))}

/-- However a reader goes through the histories of accounts, forth and back and on to another account, while pages load, fail, are
fetched ahead and are given up, and while operations arrive: the pages that lead to the one on the screen show operations of the
account, from newest to oldest and none twice, and none that was there at first is left out down to where this page ends. Only where
the list came in the place of another account's, behind a cursor of this, what the account has above the cursor is not shown. -/
theorem history_shown (hanswers : ∀ address, AnswersHistory (feeds address) fun i => fetchAccountOperations i address) (address : Text)
    (es : List (Event Text Token)) {s : Reader Text Token (OperationRecord Token Detail)}
    (hs : s ∈ states (Reader.step accountHistory (accountOperationsQuery fetchAccountOperations)) (Reader.opened address) es) :
    HistoryShown (feeds s.filter) s := by
  have hsound : s.Sound accountHistory (accountOperationsQuery fetchAccountOperations) := Reader.sound_of_not_keepPrevious rfl hs
  have hsliced : Sliced accountHistory.pageSize
      (fun cursor page => ∃ i, accountOperationsQuery fetchAccountOperations i (s.filter, cursor) = some page) (fun _ => True)
      ((feeds s.filter).tokens 0) {token | ∃ j, token ∈ (feeds s.filter).tokens j} OperationRecord.pagingToken id := by
    refine ⟨?_, fun _ _ _ _ _ _ => trivial⟩
    rintro cursor page - ⟨i, hpage⟩
    obtain ⟨records, hrecords, rfl⟩ := Option.map_eq_some_iff.mp hpage
    refine ((hanswers s.filter).slice hrecords).mono ?_ fun p hp => ⟨i, hp⟩
    rintro p ⟨r, hr, rfl⟩
    exact ⟨r, (feeds s.filter).first_subset i hr, rfl⟩
  have htiled := hsound.tiled hsliced trivial
  have hheld : ∀ r ∈ s.shown.flatMap PageData.items, ∃ j, r ∈ (feeds s.filter).records j := by
    intro r hr
    obtain ⟨page, hpage, hr⟩ := List.mem_flatMap.mp hr
    obtain ⟨cursor, -, i, hanswer⟩ := hsound.answered hsliced trivial page hpage
    obtain ⟨records, hrecords, rfl⟩ := Option.map_eq_some_iff.mp hanswer
    exact ⟨i, ((hanswers s.filter).held i historyPage cursor records hrecords r hr).1⟩
  refine ⟨List.pairwise_map.mp htiled.descends, hheld, fun r hr => ?_, fun page hpage r hr hbelow hbound => ?_⟩
  · exact lt_topOf_iff.mp (htiled.below _ (List.mem_map_of_mem hr))
  · obtain ⟨r', hr', htoken⟩ := List.mem_map.mp (htiled.all page hpage _ ⟨r, hr, rfl⟩ (lt_topOf_iff.mpr hbelow) hbound)
    obtain ⟨j, hj⟩ := hheld r' hr'
    rwa [← (feeds s.filter).unique hj hr htoken]

/-- Below an account's first operation there is none. -/
theorem AnswersHistory.nil_of_first {feed : AccountFeed Token Detail}
    {fetch : Nat → Nat → Option Token → Option (List (OperationRecord Token Detail))} (h : AnswersHistory feed fetch) {token : Token}
    (hfirst : ∀ j, ∀ r ∈ feed.records j, token ≤ r.pagingToken) {i limit : Nat} {page : List (OperationRecord Token Detail)}
    (hpage : fetch i limit (some token) = some page) : page = [] := by
  refine List.eq_nil_iff_forall_not_mem.mpr fun r hr => ?_
  obtain ⟨hmem, hbelow⟩ := h.held i limit (some token) page hpage r hr
  exact absurd (hbelow token rfl) (not_lt.mpr (hfirst i r hmem))

/-- Behind a full page that ends with an account's first operation there is an empty one, and no click leads away from it: whatever is
loaded, fails, is tried again or is given up, and whatever operations arrive above. -/
theorem history_stuck (hanswers : ∀ address, AnswersHistory (feeds address) fun i => fetchAccountOperations i address) (address : Text)
    (es : List (Event Text Token)) {s : Reader Text Token (OperationRecord Token Detail)}
    (hs : s ∈ states (Reader.step accountHistory (accountOperationsQuery fetchAccountOperations)) (Reader.opened address) es)
    {page : PageData Token (OperationRecord Token Detail)} (hcache : s.cache s.key = some page) (hfailed : s.failed s.key = false)
    (hfull : page.items.length = historyPage)
    (hlast : ∀ last ∈ page.items.getLast?, ∀ j, ∀ r ∈ (feeds s.filter).records j, last.pagingToken ≤ r.pagingToken) :
    ∃ s', Reader.step accountHistory (accountOperationsQuery fetchAccountOperations) s .next = some s' ∧ ∀ es',
      EachStep (Reader.step accountHistory (accountOperationsQuery fetchAccountOperations)) Reader.Stays s' es' →
        ∀ t ∈ states (Reader.step accountHistory (accountOperationsQuery fetchAccountOperations)) s' es',
          t.key = s'.key ∧ t.controls accountHistory = none := by
  have hsound : s.Sound accountHistory (accountOperationsQuery fetchAccountOperations) := Reader.sound_of_not_keepPrevious rfl hs
  obtain ⟨i, hanswer⟩ := hsound.cache _ _ hcache
  obtain ⟨last, hgetLast⟩ : ∃ last, page.items.getLast? = some last := by
    refine Option.ne_none_iff_exists'.mp fun hnone => ?_
    rw [List.getLast?_eq_none_iff.mp hnone] at hfull
    cases hfull
  have htoken : nextToken accountHistory.pageSize page = some last.pagingToken := by
    obtain ⟨records, -, rfl⟩ := Option.map_eq_some_iff.mp hanswer
    refine (nextToken_accountHistoryData _).trans ((if_pos hfull).trans ?_)
    exact congrArg (Option.map OperationRecord.pagingToken) hgetLast
  have hdata : s.data accountHistory = some page := by
    rw [Reader.data, hfailed, if_neg Bool.false_ne_true, hcache]
    rfl
  have hcontrols : s.controls accountHistory = some page := by
    refine Option.filter_eq_some_iff.mpr ⟨hdata, ?_⟩
    rw [show accountHistory.drawsEmpty = false from rfl, Bool.false_or, Bool.not_eq_true', List.isEmpty_eq_false_iff]
    rintro hnil
    rw [hnil] at hfull
    cases hfull
  -- the page behind the last operation is empty whenever it is asked for
  have hempty : ∀ j page', accountOperationsQuery fetchAccountOperations j (s.filter, some last.pagingToken) = some page' →
      page'.items = [] := by
    intro j page' hpage'
    obtain ⟨records, hrecords, rfl⟩ := Option.map_eq_some_iff.mp hpage'
    exact (hanswers s.filter).nil_of_first (hlast last hgetLast) hrecords
  have hnext : Reader.next accountHistory s =
      some { s with visited := s.visited ++ [last.pagingToken], trail := s.trail ++ [page] } := by
    rw [Reader.next, hcontrols, Option.bind_some, htoken, Option.map_some]
  refine ⟨_, by rw [Reader.step, hnext, Option.map_some], fun es' hstays t ht => ?_⟩
  have hkey : (Reader.draw { s with visited := s.visited ++ [last.pagingToken], trail := s.trail ++ [page] }).key =
      (s.filter, some last.pagingToken) := by
    rw [Reader.key, Reader.cursor]
    exact congrArg (Prod.mk s.filter) List.getLast?_concat
  have hinv : t.key = (s.filter, some last.pagingToken) ∧
      ∀ page', t.cache (s.filter, some last.pagingToken) = some page' → page'.items = [] := by
    refine EachStep.invariant (fun _ _ _ h hs hstep => Reader.stuck_step rfl rfl hempty h hs hstep) ⟨hkey, ?_⟩ hstays t ht
    intro page' hpage'
    obtain ⟨j, hj⟩ := hsound.cache _ _ hpage'
    exact hempty j page' hj
  exact ⟨hinv.1.trans hkey.symm, Reader.controls_of_empty rfl rfl hinv.1 hinv.2⟩

end

end

/-! ## Accounts of a few operations -/

/-- An account of `n` operations, whose tokens count down to 0. -/
def countedFeed (n : Nat) : AccountFeed Nat Unit where
  records _ := (List.range n).reverse.map fun token => ⟨token, [], ()⟩
  descending _ := by
    rw [Descending, List.pairwise_map, List.pairwise_reverse]
    exact List.pairwise_lt_range
  grows _ := List.Subset.refl _

/-- Its pages: the first of the operations below the cursor. -/
def countedPage (n limit : Nat) (cursor : Option Nat) : List (OperationRecord Nat Unit) :=
  (((countedFeed n).records 0).filter fun r => cursor.all fun c => decide (r.pagingToken < c)).take limit

theorem answersHistory_counted (n : Nat) :
    AnswersHistory (countedFeed n) fun _ limit cursor => some (countedPage n limit cursor) := by
  have hdescending : ∀ cursor : Option Nat, Descending OperationRecord.pagingToken
      (((countedFeed n).records 0).filter fun r => cursor.all fun c => decide (r.pagingToken < c)) := fun _ =>
    ((countedFeed n).descending 0).filter _
  have hbelow : ∀ {cursor : Option Nat} {token : Nat}, cursor.all (fun c => decide (token < c)) = true ↔ ∀ c ∈ cursor, token < c := by
    intro cursor token
    cases cursor <;> simp
  constructor
  · rintro i limit cursor _ ⟨⟩ r hr
    obtain ⟨hmem, hall⟩ := List.mem_filter.mp (List.mem_of_mem_take hr)
    exact ⟨hmem, hbelow.mp hall⟩
  · rintro i limit cursor _ ⟨⟩
    exact (hdescending cursor).take limit
  · rintro i limit cursor _ ⟨⟩
    exact List.length_take_le _ _
  · rintro i limit cursor _ ⟨⟩ r hr hcursor
    have hmem : r ∈ ((countedFeed n).records 0).filter fun r => cursor.all fun c => decide (r.pagingToken < c) :=
      List.mem_filter.mpr ⟨hr, hbelow.mpr hcursor⟩
    refine or_iff_not_imp_left.mpr fun hcut => ⟨?_, fun r' hr' => (hdescending cursor).lt_of_take hr' hmem hcut⟩
    -- a list that is cut off is longer than the cut
    by_contra hshort
    rw [countedPage, List.length_take] at hshort
    exact hcut (by rwa [countedPage, List.take_of_length_le (by omega)])

/-- Two accounts, one of 45 operations and the others of 41. -/
def countedAccounts (address : Text) : Nat := if address = ['A'] then 45 else 41

/-- What is answered for them. -/
def fetchCounted (_ : Nat) (address : Text) (limit : Nat) (cursor : Option Nat) : Option (List (OperationRecord Nat Unit)) :=
  some (countedPage (countedAccounts address) limit cursor)

/-- A reader goes on to the second page of an account, from there to another account and to its next page. -/
def countedReading : List (Event Text Nat) :=
  [.arrives (['A'], none) 0, .next, .arrives (['A'], some 25) 0, .switches ['B'], .arrives (['B'], some 25) 1, .next,
   .fails (['B'], some 5), .retries (['B'], some 5), .arrives (['B'], some 5) 2]

/-- Of the second account 25 operations are shown, and the 16 above the cursor are not. -/
theorem history_shown_counted :
    ∃ s, run (Reader.step accountHistory (accountOperationsQuery fetchCounted)) (Reader.opened ['A']) countedReading = some s ∧
      HistoryShown (countedFeed 41) s ∧ (s.inherited, s.visited) = ([25], [25, 5]) ∧ (s.shown.flatMap PageData.items).length = 25 := by
  have hend : (run (Reader.step accountHistory (accountOperationsQuery fetchCounted)) (Reader.opened ['A']) countedReading).map
      (fun s => (s.filter, (s.inherited, s.visited), (s.shown.flatMap PageData.items).length)) =
      some (['B'], ([25], [25, 5]), 25) := by
    decide +kernel
  obtain ⟨s, hrun, hs⟩ := Option.map_eq_some_iff.mp hend
  obtain ⟨hfilter, hrest⟩ := Prod.mk.inj hs
  obtain ⟨hvisited, hlength⟩ := Prod.mk.inj hrest
  have hanswers : ∀ address, AnswersHistory (countedFeed (countedAccounts address)) fun i => fetchCounted i address :=
    fun address => answersHistory_counted (countedAccounts address)
  have hshown := history_shown hanswers ['A'] countedReading (run_mem_states hrun)
  rw [hfilter] at hshown
  exact ⟨s, hrun, hshown, hvisited, hlength⟩

/-- The second page of an account of 40 operations leads to an empty page, which is given up and loaded again. -/
theorem history_stuck_forty :
    ∃ s s', run (Reader.step accountHistory (accountOperationsQuery fun _ _ limit cursor => some (countedPage 40 limit cursor)))
        (Reader.opened []) [.arrives ([], none) 0, .next, .arrives ([], some 20) 0] = some s ∧
      Reader.step accountHistory (accountOperationsQuery fun _ _ limit cursor => some (countedPage 40 limit cursor)) s .next = some s' ∧
      ∀ t ∈ states (Reader.step accountHistory (accountOperationsQuery fun _ _ limit cursor => some (countedPage 40 limit cursor))) s'
        [.arrives ([], some 0) 0, .evicts ([], some 0), .fails ([], some 0), .arrives ([], some 0) 1],
        t.key = s'.key ∧ t.controls accountHistory = none := by
  have hend : (run (Reader.step accountHistory (accountOperationsQuery fun _ _ limit cursor => some (countedPage 40 limit cursor)))
      (Reader.opened []) [.arrives ([], none) 0, .next, .arrives ([], some 20) 0]).map
      (fun s => (s.cache s.key, s.failed s.key)) = some (some (accountHistoryData (countedPage 40 historyPage (some 20))), false) := by
    decide +kernel
  obtain ⟨s, hrun, hs⟩ := Option.map_eq_some_iff.mp hend
  obtain ⟨hcache, hfailed⟩ := Prod.mk.inj hs
  have hlast : ∀ last ∈ (accountHistoryData (countedPage 40 historyPage (some 20))).items.getLast?,
      ∀ j, ∀ r ∈ (countedFeed 40).records j, last.pagingToken ≤ r.pagingToken := by
    have hzero : (accountHistoryData (countedPage 40 historyPage (some 20))).items.getLast? = some ⟨0, [], ()⟩ := by
      decide +kernel
    rw [hzero]
    rintro last ⟨⟩ j r -
    exact Nat.zero_le _
  have hanswers : ∀ _ : Text, AnswersHistory (countedFeed 40) fun _ limit cursor => some (countedPage 40 limit cursor) :=
    fun _ => answersHistory_counted 40
  obtain ⟨s', hnext, hstuck⟩ := history_stuck hanswers [] _ (run_mem_states hrun) hcache hfailed (by decide +kernel) hlast
  have hstays : EachStep
      (Reader.step accountHistory (accountOperationsQuery fun _ _ limit cursor => some (countedPage 40 limit cursor))) Reader.Stays s'
      [.arrives ([], some 0) 0, .evicts ([], some 0), .fails ([], some 0), .arrives ([], some 0) 1] :=
    EachStep.of_forall (by simp [Reader.Stays]) _
  exact ⟨s, s', hrun, hnext, hstuck _ hstays⟩

end CursorPages

end Soroscan
