import Soroscan.Horizon
import Soroscan.Lemmas.Live
import Soroscan.Lib.Newest

/-!
# The live tail and its gaps

The list is seeded by a page and tailed by a stream, two requests without a common cursor. What closes between the answer of the
page and the acceptance of the stream is in neither, and a late batch may push newer records off the end of the list. In a run
without either, there is no gap once every page has arrived and the buffer is flushed.
-/

namespace Soroscan

/-- The records that a merge cuts off at the cap are older than those it keeps. -/
def StreamOptions.CutsOldest (o : StreamOptions Nat Nat) (existing incoming : List Nat) : Prop :=
  ∀ r ∈ (o.joined existing incoming).drop o.cap, ∀ s ∈ (o.joined existing incoming).take o.cap, r < s

namespace Horizon

/-- The page that was asked for last was answered with so many records. -/
def SeededAt (w : Horizon) (count : Nat) : Prop :=
  w.pages.getLast? = some (.answered count) ∨ w.pages.getLast? = some (.arrived count)

/-- The condition on an event. When a stream from now on is accepted, the page asked for with it is not answered yet, or nothing
has closed since. A page or the buffer is merged without cutting off a newer record. -/
def Meets (cap : Nat) (w : Horizon) : Event → Prop
  | .accepts => w.stream = .waiting .now → ∀ count, w.SeededAt count → count = w.closed
  | .arrives request => ∀ count, w.pages[request]? = some (.answered count) →
      (recordOptions cap).CutsOldest w.hook.records (pageAt cap count)
  | .flushes => (recordOptions cap).CutsOldest w.hook.records w.hook.buffer.reverse
  | _ => True

/-! ## Pages and merges of numbers -/

theorem mem_pageAt {cap count a : Nat} : a ∈ pageAt cap count ↔ count - cap < a ∧ a ≤ count := by
  have hpage : pageAt cap count = (List.range' (count - cap + 1) (min cap count)).reverse := by
    rw [pageAt, List.take_reverse, List.length_range', List.drop_range']
    congr 2 <;> omega
  rw [hpage, List.mem_reverse, List.mem_range'_1]
  omega

/-- Merging adds the records of the batch to what was seen. -/
theorem newestOf_merge {cap : Nat} {merged : Set Nat} {existing incoming : List Nat} (h : NewestOf cap merged existing)
    (hcut : (recordOptions cap).CutsOldest existing incoming) :
    NewestOf cap (merged ∪ {a | a ∈ incoming}) ((recordOptions cap).mergeRecords existing incoming) := by
  rw [(recordOptions cap).mergeRecords_eq h.length_le]
  refine h.cut ?_ (fun a => ⟨fun ha => ?_, fun ha => ?_⟩) hcut
  · exact (recordOptions cap).joined_keys h.nodup incoming
  · rcases List.mem_append.mp ha with ha | ha
    · exact Or.inr (((recordOptions cap).deduped_sublist incoming).subset ha)
    · exact Or.inl (((recordOptions cap).mem_kept.mp ha).1)
  · obtain ⟨b, hb, hkey⟩ := (recordOptions cap).exists_joined (List.mem_append.mpr ha)
    exact (show b = a from hkey) ▸ hb

/-! ## The invariant -/

/-- Pages and stream together leave no hole: `first` is where the latest stream from now on was accepted, `last` what it or its
continuations have delivered, and `merged` what has reached the list. -/
structure Linked (cap : Nat) (w : Horizon) (merged : Set Nat) (first last : Nat) : Prop where
  newest : NewestOf cap merged w.hook.records
  positive : ∀ a, a ∈ merged ∨ a ∈ w.hook.buffer → 0 < a
  bounded : ∀ a, a ∈ merged ∨ a ∈ w.hook.buffer → a ≤ last ∨ ∃ count, .arrived count ∈ w.pages ∧ a ≤ count
  delivered : ∀ a, first < a → a ≤ last → a ∈ merged ∨ a ∈ w.hook.buffer
  windows : ∀ count, .arrived count ∈ w.pages → ∀ a, count - cap < a → a ≤ count → a ∈ merged
  seeded : ∀ count, w.SeededAt count → first ≤ count
  asked : w.pages ≠ []
  first_le : first ≤ last
  last_le : last ≤ w.closed
  position : ∀ position, w.stream = .accepted position → position = last
  resumed : ∀ position, w.stream = .waiting (.token position) → position = last
  seeding : w.stream = .waiting .now → staleGapMs < w.clock - w.hook.lastEventAt
  token : w.hook.lastToken = .token last ∨ staleGapMs < w.clock - w.hook.lastEventAt

/-- Of the pages that arrived, one is the newest. -/
theorem exists_newest_page {pages : List PageRequest} {count : Nat} (h : .arrived count ∈ pages) :
    ∃ newest, .arrived newest ∈ pages ∧ ∀ c, .arrived c ∈ pages → c ≤ newest := by
  have hfinite : {c | PageRequest.arrived c ∈ pages}.Finite :=
    Set.Finite.preimage (fun _ _ _ _ heq => PageRequest.arrived.inj heq) pages.finite_toSet
  obtain ⟨newest, hnewest, hgreatest⟩ := Set.exists_max_image _ id hfinite ⟨count, h⟩
  exact ⟨newest, hnewest, fun c hc => hgreatest c hc⟩

/-- Once everything has arrived, there is no gap. -/
theorem Linked.noGap {cap : Nat} {w : Horizon} {merged : Set Nat} {first last : Nat} (h : Linked cap w merged first last)
    (hsettled : w.Settled) : w.NoGap := by
  obtain ⟨harrived, hbuffer⟩ := hsettled
  obtain ⟨count, hcount⟩ := harrived (w.pages.getLast h.asked) (List.getLast_mem h.asked)
  have hlast : w.pages.getLast? = some (.arrived count) := by rw [List.getLast?_eq_some_getLast h.asked, hcount]
  have hfirst := h.seeded count (Or.inr hlast)
  have hmem : PageRequest.arrived count ∈ w.pages := List.mem_of_getLast? hlast
  have hbounded : ∀ a ∈ merged, a ≤ last ∨ ∃ count, .arrived count ∈ w.pages ∧ a ≤ count := fun a ha => h.bounded a (Or.inl ha)
  have hdelivered : ∀ a, first < a → a ≤ last → a ∈ merged := by
    intro a hfirst hlast
    refine (h.delivered a hfirst hlast).resolve_right fun hin => ?_
    rw [hbuffer] at hin
    exact List.not_mem_nil hin
  -- the newest page that arrived
  obtain ⟨newest, hnewest, hgreatest⟩ := exists_newest_page hmem
  have hwindow : ∀ a, max last newest - cap < a → a ≤ max last newest → a ∈ merged := by
    intro a hlow hhigh
    by_cases hpage : a ≤ newest
    · exact h.windows newest hnewest a (by omega) hpage
    · have := hgreatest count hmem
      exact hdelivered a (by omega) (by omega)
  have htop : ∀ a ∈ merged, a ≤ max last newest := by
    intro a ha
    rcases hbounded a ha with hle | ⟨c, hc, hle⟩
    · exact hle.trans (le_max_left _ _)
    · exact hle.trans ((hgreatest c hc).trans (le_max_right _ _))
  intro oldest holdest newestShown hnewestShown record hlow hhigh
  exact h.newest.mem_of_between htop hwindow holdest hnewestShown (h.positive _ (Or.inl (h.newest.subset _ holdest))) hlow hhigh

/-! ## Requests -/

/-- The last request, when one was changed. -/
theorem getLast?_set {pages : List PageRequest} {i : Nat} {old new request : PageRequest} (hold : pages[i]? = some old)
    (h : (pages.set i new).getLast? = some request) :
    (request = new ∧ pages.getLast? = some old) ∨ pages.getLast? = some request := by
  rw [List.getLast?_eq_getElem?, List.length_set, List.getElem?_set] at h
  rw [List.getLast?_eq_getElem?]
  split_ifs at h with hi hlt
  · cases h
    exact Or.inl ⟨rfl, hi ▸ hold⟩
  · exact Or.inr h

/-- A page that arrived stays when another request changes. -/
theorem arrived_mem_set {pages : List PageRequest} {i count : Nat} {old : PageRequest} (new : PageRequest)
    (hold : pages[i]? = some old) (hne : old ≠ .arrived count) (h : .arrived count ∈ pages) :
    .arrived count ∈ pages.set i new := by
  obtain ⟨j, hj⟩ := List.mem_iff_getElem?.mp h
  refine List.mem_iff_getElem?.mpr ⟨j, ?_⟩
  rw [List.getElem?_set_ne, hj]
  rintro rfl
  rw [hold] at hj
  exact hne (Option.some.inj hj)

/-! ## What each event keeps -/

variable {cap : Nat} {w w' : Horizon} {merged : Set Nat} {first last : Nat}

/-- Another record closes. -/
theorem Linked.closes (h : Linked cap w merged first last) :
    Linked cap { w with closed := w.closed + 1 } merged first last :=
  { h with last_le := h.last_le.trans (Nat.le_succ _) }

/-- The stream is accepted: one from now on starts a new chain, one after a token goes on with the old one. -/
theorem Linked.accepts (h : Linked cap w merged first last) (hmeets : w.Meets cap .accepts)
    (hstep : w.step cap .accepts = some w') : ∃ first last, Linked cap w' merged first last := by
  rw [step] at hstep
  cases hstream : w.stream with
  | closed | accepted position =>
    rw [hstream] at hstep
    cases hstep
  | waiting cursor =>
    rw [hstream] at hstep
    cases cursor with
    | now =>
      cases hstep
      refine ⟨w.closed, w.closed, { h with
        bounded := fun a ha => ?_, delivered := fun a hlow hhigh => absurd hhigh (not_le.mpr hlow)
        seeded := fun count hcount => (hmeets hstream count hcount).ge, first_le := le_rfl, last_le := le_rfl
        position := fun position heq => ?_, resumed := nofun, seeding := nofun
        token := Or.inr (h.seeding hstream) }⟩
      · exact (h.bounded a ha).imp_left fun hle => hle.trans h.last_le
      · cases heq
        rfl
    | token position =>
      cases hstep
      refine ⟨first, last, { h with
        position := fun position' heq => ?_, resumed := nofun, seeding := nofun }⟩
      cases heq
      exact h.resumed position hstream

/-- The stream delivers the next record. -/
theorem Linked.delivers (h : Linked cap w merged first last) {now : Nat} (hstep : w.step cap (.delivers now) = some w') :
    ∃ last, Linked cap w' merged first last := by
  rw [step] at hstep
  cases hstream : w.stream with
  | closed | waiting cursor =>
    rw [hstream] at hstep
    cases hstep
  | accepted position =>
    rw [hstream] at hstep
    simp only at hstep
    split_ifs at hstep with hnext
    cases hstep
    have hlast := h.position position hstream
    refine ⟨position + 1, { h with
      positive := fun a ha => ?_, bounded := fun a ha => ?_, delivered := fun a hlow hhigh => ?_
      first_le := ?_, last_le := hnext.1, position := fun position' heq => ?_
      resumed := nofun, seeding := nofun, token := Or.inl rfl }⟩
    · rcases ha with ha | ha
      · exact h.positive a (Or.inl ha)
      · rcases List.mem_append.mp ha with ha | ha
        · exact h.positive a (Or.inr ha)
        · rw [List.mem_singleton.mp ha]
          exact Nat.succ_pos _
    · have hold : a ∈ merged ∨ a ∈ w.hook.buffer → a ≤ position + 1 ∨ ∃ count, .arrived count ∈ w.pages ∧ a ≤ count :=
        fun ha => (h.bounded a ha).imp_left fun hle => by omega
      rcases ha with ha | ha
      · exact hold (Or.inl ha)
      · rcases List.mem_append.mp ha with ha | ha
        · exact hold (Or.inr ha)
        · rw [List.mem_singleton.mp ha]
          exact Or.inl le_rfl
    · by_cases hnew : a = position + 1
      · exact Or.inr (List.mem_append_right _ (List.mem_singleton.mpr hnew))
      · exact (h.delivered a hlow (by omega)).imp_right fun ha => List.mem_append_left _ ha
    · have := h.first_le
      omega
    · cases heq
      rfl

/-- A page request is answered: nothing that the stream has delivered is newer than the answer, now. -/
theorem Linked.answers (h : Linked cap w merged first last) {request : Nat}
    (hstep : w.step cap (.answers request) = some w') : Linked cap w' merged first last := by
  rw [step] at hstep
  split_ifs at hstep with hasked
  cases hstep
  refine { h with
    bounded := fun a ha => ?_, windows := fun count hcount => ?_, seeded := fun count hcount => ?_, asked := ?_ }
  · refine (h.bounded a ha).imp_right fun ⟨count, hcount, hle⟩ => ⟨count, ?_, hle⟩
    exact arrived_mem_set _ hasked (fun heq => nomatch heq) hcount
  · rcases List.mem_or_eq_of_mem_set hcount with hcount | heq
    · exact h.windows count hcount
    · cases heq
  · rcases hcount with hcount | hcount
    · rcases getLast?_set hasked hcount with ⟨heq, -⟩ | hcount
      · cases heq
        exact h.first_le.trans h.last_le
      · exact h.seeded count (Or.inl hcount)
    · rcases getLast?_set hasked hcount with ⟨heq, -⟩ | hcount
      · cases heq
      · exact h.seeded count (Or.inr hcount)
  · exact List.ne_nil_of_length_pos (by
      rw [List.length_set]
      exact List.length_pos_iff.mpr h.asked)

/-- A page arrives. -/
theorem Linked.arrives (h : Linked cap w merged first last) {request : Nat} (hmeets : w.Meets cap (.arrives request))
    (hstep : w.step cap (.arrives request) = some w') : ∃ merged, Linked cap w' merged first last := by
  rw [step] at hstep
  cases hanswered : w.pages[request]? with
  | none =>
    rw [hanswered] at hstep
    cases hstep
  | some old =>
    rw [hanswered] at hstep
    cases old with
    | asked | arrived count => cases hstep
    | answered count =>
      cases hstep
      have hnew : PageRequest.arrived count ∈ w.pages.set request (.arrived count) := by
        obtain ⟨hlt, -⟩ := List.getElem?_eq_some_iff.mp hanswered
        exact List.mem_set hlt _
      refine ⟨merged ∪ {a | a ∈ pageAt cap count}, { h with
        newest := newestOf_merge h.newest (hmeets count hanswered)
        positive := fun a ha => ?_, bounded := fun a ha => ?_, delivered := fun a hlow hhigh => ?_
        windows := fun c hc a hlow hhigh => ?_, seeded := fun c hc => ?_, asked := List.ne_nil_of_mem hnew }⟩
      · rcases ha with (ha | ha) | ha
        · exact h.positive a (Or.inl ha)
        · have := mem_pageAt.mp ha
          omega
        · exact h.positive a (Or.inr ha)
      · have hold : a ∈ merged ∨ a ∈ w.hook.buffer →
            a ≤ last ∨ ∃ c, .arrived c ∈ w.pages.set request (.arrived count) ∧ a ≤ c := by
          refine fun ha => (h.bounded a ha).imp_right fun ⟨c, hc, hle⟩ => ⟨c, ?_, hle⟩
          exact arrived_mem_set _ hanswered (fun heq => nomatch heq) hc
        rcases ha with (ha | ha) | ha
        · exact hold (Or.inl ha)
        · exact Or.inr ⟨count, hnew, (mem_pageAt.mp ha).2⟩
        · exact hold (Or.inr ha)
      · exact (h.delivered a hlow hhigh).imp_left Or.inl
      · rcases List.mem_or_eq_of_mem_set hc with hc | heq
        · exact Or.inl (h.windows c hc a hlow hhigh)
        · cases heq
          exact Or.inr (mem_pageAt.mpr ⟨hlow, hhigh⟩)
      · rcases hc with hc | hc
        · rcases getLast?_set hanswered hc with ⟨heq, -⟩ | hc
          · cases heq
          · exact h.seeded c (Or.inl hc)
        · rcases getLast?_set hanswered hc with ⟨heq, hlast⟩ | hc
          · cases heq
            exact h.seeded count (Or.inl hlast)
          · exact h.seeded c (Or.inr hc)

/-- A flush merges the buffer and empties it. -/
theorem takes_flush (cap : Nat) (w : Horizon) : takes cap w .flush = { w with
    hook := { w.hook with
      records := (recordOptions cap).mergeRecords w.hook.records w.hook.buffer.reverse, buffer := [] } } := by
  obtain ⟨⟨records, status, buffer, lastToken, lastEventAt, errors, polling⟩, closed, pages, stream, visible, clock⟩ := w
  cases buffer <;> rfl

/-- What was merged or is left in the buffer by a flush was one of these before. -/
theorem mem_flushed {buffer : List Nat} {a : Nat} (h : a ∈ merged ∪ {a | a ∈ buffer.reverse} ∨ a ∈ ([] : List Nat)) :
    a ∈ merged ∨ a ∈ buffer := by
  rcases h with (h | h) | h
  · exact Or.inl h
  · exact Or.inr (List.mem_reverse.mp h)
  · exact absurd h List.not_mem_nil

/-- The buffer is flushed. -/
theorem Linked.flushes (h : Linked cap w merged first last) (hmeets : w.Meets cap .flushes)
    (hstep : w.step cap .flushes = some w') : ∃ merged, Linked cap w' merged first last := by
  cases hstep
  rw [takes_flush]
  refine ⟨merged ∪ {a | a ∈ w.hook.buffer.reverse}, { h with
    newest := newestOf_merge h.newest hmeets, positive := fun a ha => ?_, bounded := fun a ha => ?_
    delivered := fun a hlow hhigh => ?_, windows := fun count hcount a hlow hhigh => Or.inl (h.windows count hcount a hlow hhigh) }⟩
  · exact h.positive a (mem_flushed ha)
  · exact h.bounded a (mem_flushed ha)
  · refine Or.inl ((h.delivered a hlow hhigh).imp_right fun ha => ?_)
    exact List.mem_reverse.mpr ha

/-- The tab is hidden. -/
theorem Linked.hides (h : Linked cap w merged first last) (hstep : w.step cap .hides = some w') :
    Linked cap w' merged first last := by
  rw [step] at hstep
  split_ifs at hstep
  cases hstep
  exact { h with
    position := nofun, resumed := nofun, seeding := nofun }

/-- The tab is shown: after a long gap a page is asked for again, otherwise the stream goes on where it was. -/
theorem Linked.shows (h : Linked cap w merged first last) {now : Nat} (hstep : w.step cap (.shows now) = some w') :
    Linked cap w' merged first last := by
  rw [step] at hstep
  split_ifs at hstep with hnow
  cases hstep
  have hclock : staleGapMs < w.clock - w.hook.lastEventAt → staleGapMs < now - w.hook.lastEventAt := by omega
  unfold takes Hook.step Hook.onVisible
  simp only
  split_ifs with hpolling hstale
  · exact { h with seeding := fun heq => hclock (h.seeding heq), token := h.token.imp_right hclock }
  · refine { h with
      bounded := fun a ha => ?_, windows := fun count hcount => ?_, seeded := fun count hcount => ?_, asked := ?_
      position := nofun, resumed := nofun, seeding := fun _ => hstale, token := Or.inr hstale }
    · refine (h.bounded a ha).imp_right fun ⟨count, hcount, hle⟩ => ⟨count, List.mem_append_left _ hcount, hle⟩
    · rcases List.mem_append.mp hcount with hcount | hcount
      · exact h.windows count hcount
      · cases List.mem_singleton.mp hcount
    · have hlast : (w.pages ++ [PageRequest.asked]).getLast? = some .asked := List.getLast?_concat
      rcases hcount with hcount | hcount
      · cases hlast.symm.trans hcount
      · cases hlast.symm.trans hcount
    · exact List.append_ne_nil_of_right_ne_nil _ (List.cons_ne_nil _ _)
  · have htoken : w.hook.lastToken = .token last := h.token.resolve_right fun hgap => hstale (hclock hgap)
    refine { h with
      position := nofun, resumed := fun position heq => ?_, seeding := fun heq => ?_, token := Or.inl htoken }
    · exact StreamCursor.token.inj ((StreamLink.waiting.inj heq).symm.trans htoken)
    · exact nomatch htoken.symm.trans (StreamLink.waiting.inj heq)

/-- Every event that meets its condition keeps pages and stream linked. -/
theorem linked_step {e : Event} (h : ∃ merged first last, Linked cap w merged first last) (hmeets : w.Meets cap e)
    (hstep : w.step cap e = some w') : ∃ merged first last, Linked cap w' merged first last := by
  obtain ⟨merged, first, last, h⟩ := h
  cases e with
  | closes =>
    cases hstep
    exact ⟨merged, first, last, h.closes⟩
  | accepts => exact ⟨merged, h.accepts hmeets hstep⟩
  | delivers now => exact ⟨merged, first, h.delivers hstep⟩
  | answers request => exact ⟨merged, first, last, h.answers hstep⟩
  | arrives request =>
    obtain ⟨merged, h⟩ := h.arrives hmeets hstep
    exact ⟨merged, first, last, h⟩
  | flushes =>
    obtain ⟨merged, h⟩ := h.flushes hmeets hstep
    exact ⟨merged, first, last, h⟩
  | hides => exact ⟨merged, first, last, h.hides hstep⟩
  | shows now => exact ⟨merged, first, last, h.shows hstep⟩

/-- The reader when it is mounted: nothing has arrived. -/
theorem linked_mount (cap : Nat) {closed clock : Nat} (hclock : staleGapMs < clock) :
    Linked cap (mount closed clock) ∅ 0 0 where
  newest := NewestOf.nil cap
  positive a ha := (ha.elim id fun h => absurd h List.not_mem_nil).elim
  bounded a ha := (ha.elim id fun h => absurd h List.not_mem_nil).elim
  delivered a hlow hhigh := absurd hhigh (not_le.mpr hlow)
  windows count hcount := by cases List.mem_singleton.mp hcount
  seeded count _ := Nat.zero_le _
  asked := List.cons_ne_nil _ _
  first_le := le_rfl
  last_le := Nat.zero_le _
  position := nofun
  resumed := nofun
  seeding _ := hclock
  token := Or.inr hclock

/-- In every run of a reader over Horizon that meets the conditions, the list has no gap whenever every page has arrived and the
buffer is flushed. The clock counts from 1970, so that a reader that has had no message yet has had a long gap. -/
theorem settled_noGap (cap : Nat) {closed clock : Nat} (hclock : staleGapMs < clock) (events : List Event)
    (hmeets : EachStep (step cap) (Meets cap) (mount closed clock) events) :
    ∀ w ∈ states (step cap) (mount closed clock) events, w.Settled → w.NoGap := by
  intro w hw hsettled
  obtain ⟨merged, first, last, h⟩ := hmeets.invariant (fun _ _ _ h he hstep => linked_step h he hstep)
    ⟨∅, 0, 0, linked_mount cap hclock⟩ w hw
  exact h.noGap hsettled

/-! ## Two runs of a reader of three records -/

/-- The stream is accepted before the page is answered. -/
def linkedEvents : List Event :=
  [.accepts, .closes, .answers 0, .closes, .delivers 70001, .delivers 70002, .arrives 0, .flushes]

/-- The fourth record closes between the answer of the page and the acceptance of the stream. -/
def gapEvents : List Event := [.answers 0, .closes, .accepts, .closes, .delivers 70001, .arrives 0, .flushes]

theorem settled_noGap_linkedEvents : EachStep (step 3) (Meets 3) (mount 3 70000) linkedEvents ∧
    ∀ w ∈ states (step 3) (mount 3 70000) linkedEvents, w.Settled → w.NoGap := by
  refine (fun hmeets => ⟨hmeets, settled_noGap 3 (by decide) linkedEvents hmeets⟩) ?_
  rintro w₁ ⟨rfl⟩
  refine ⟨fun _ count hcount => ?_, ?_⟩
  · rcases hcount with hcount | hcount <;> cases hcount
  rintro w₂ ⟨rfl⟩
  refine ⟨trivial, ?_⟩
  rintro w₃ ⟨rfl⟩
  refine ⟨trivial, ?_⟩
  rintro w₄ ⟨rfl⟩
  refine ⟨trivial, ?_⟩
  rintro w₅ ⟨rfl⟩
  refine ⟨trivial, ?_⟩
  rintro w₆ ⟨rfl⟩
  refine ⟨trivial, ?_⟩
  rintro w₇ ⟨rfl⟩
  refine ⟨fun count hcount => ?_, ?_⟩
  · cases hcount
    exact fun r hr => absurd hr List.not_mem_nil
  rintro w₈ ⟨rfl⟩
  refine ⟨?_, trivial⟩
  show ∀ r ∈ [2], ∀ s ∈ [5, 4, 3], r < s
  decide

/-- The fourth record is in neither the page nor the stream: the list ends as 5, 3, 2. -/
theorem gapEvents_leave_gap : ∃ w ∈ states (step 3) (mount 3 70000) gapEvents, w.Settled ∧ ¬w.NoGap := by
  have hrun : (run (step 3) (mount 3 70000) gapEvents).map (fun w => (w.hook.records, w.pages, w.hook.buffer)) =
      some ([5, 3, 2], [.arrived 3], []) := by decide
  obtain ⟨w, hw, heq⟩ := Option.map_eq_some_iff.mp hrun
  simp only [Prod.mk.injEq] at heq
  obtain ⟨hrecords, hpages, hbuffer⟩ := heq
  refine ⟨w, run_mem_states hw, ⟨fun request hrequest => ?_, hbuffer⟩, fun hgap => ?_⟩
  · rw [hpages] at hrequest
    exact ⟨3, List.mem_singleton.mp hrequest⟩
  · have hfour := hgap 3 (by rw [hrecords]; decide) 5 (by rw [hrecords]; decide) 4 (by decide) (by decide)
    rw [hrecords] at hfour
    exact absurd hfour (by decide)

end Horizon

end Soroscan
