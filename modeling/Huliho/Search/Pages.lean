import Huliho.Lib.Spans
import Huliho.Search.Window

/-!
# What the pages of a search hold

A fetch brings a span of the results, whatever the server lowers its limit to
(`fetchChunk_eq`). **A row of pages fetched behind one another holds a front of the results**
(`Front`), and where it is longer than before by each fetch the gathering ends
(`gathered_ends`).
-/

namespace Huliho.Search

section

variable {α : Type} [DecidableEq α] {server : Results α} {row : SearchRow α} {id : α}

omit [DecidableEq α] in
theorem Results.nodup (server : Results α) : server.ids.Nodup := .of_map _ server.apart

theorem Results.from?_anchor {i : Nat} (h : server.ids[i]? = some id) :
    server.from? (.anchor id) = some (server.ids.drop (i + 1)) := by
  rw [from?, if_pos (List.mem_of_getElem? h), idxOf_of_getElem? server.nodup h]

/-! ## The server's pages -/

/-- **A chunk is the span from its start on**, however low the server's limit is. -/
theorem fetchChunk_eq {turns wanted n : Nat} {start : Start α} (hturns : wanted < turns)
    (hfrom : server.from? start = some (server.ids.drop n)) :
    fetchChunk server turns start wanted = some ((server.ids.drop n).take wanted) := by
  induction turns generalizing start wanted n with
  | zero => omega
  | succ turns ih =>
    have hlimit := server.limit_pos
    rw [fetchChunk, Results.query, hfrom]
    simp only [Option.map_some]
    cases hlast : ((server.ids.drop n).take (min wanted server.limit)).getLast? with
    | none =>
      have hnil := List.getLast?_eq_none_iff.1 hlast
      simp only [hnil]
      rcases Nat.eq_zero_or_pos wanted with rfl | hwanted
      · rfl
      · rw [List.take_eq_nil_iff.1 hnil |>.resolve_left (by omega), List.take_nil]
    | some last =>
      obtain ⟨hplace, hpos⟩ := span_getLast? hlast
      simp only
      split
      · next hmore =>
        simp only [Bool.and_eq_true, decide_eq_true_eq] at hmore
        have hnext := Results.from?_anchor hplace
        rw [show n + ((server.ids.drop n).take (min wanted server.limit)).length - 1 + 1 =
          n + ((server.ids.drop n).take (min wanted server.limit)).length by omega] at hnext
        rw [ih (by omega) hnext, Option.map_some]
        rw [span_continued (Nat.min_le_left _ _)]
      · next hstop =>
        simp only [Bool.and_eq_true, decide_eq_true_eq, not_and] at hstop
        congr 1
        by_cases hlowered : server.limit < wanted
        · have hfull : ¬ ((server.ids.drop n).take (min wanted server.limit)).length < wanted :=
            fun hlt => hstop hlt hlowered
          rw [List.length_take] at hfull
          omega
        · rw [Nat.min_eq_left (by omega)]

theorem fetchWindow_eq {start : Start α} {n : Nat}
    (hfrom : server.from? start = some (server.ids.drop n)) :
    fetchWindow server start = some ((server.ids.drop n).take windowSize) :=
  fetchChunk_eq (by decide) hfrom

/-- A page no row precedes starts at its position. -/
theorem fetchPage_none (page : Nat) :
    fetchPage server page none = (server.ids.drop (page * windowSize)).take windowSize := by
  rw [fetchPage, fetchWindow_eq rfl, Option.getD_some]

/-- A page behind a row starts right after it. -/
theorem fetchPage_some {i : Nat} (page : Nat) (h : server.ids[i]? = some id) :
    fetchPage server page (some id) = (server.ids.drop (i + 1)).take windowSize := by
  simp only [fetchPage]
  rw [fetchWindow_eq (Results.from?_anchor h), Option.getD_some]

/-- A page is some span of the results. -/
theorem fetchPage_span (server : Results α) (page : Nat) (anchor : Option α) : ∃ n,
    fetchPage server page anchor = (server.ids.drop n).take windowSize := by
  cases anchor with
  | none => exact ⟨_, fetchPage_none page⟩
  | some id =>
    by_cases hid : id ∈ server.ids
    · obtain ⟨i, hi⟩ := List.mem_iff_getElem?.1 hid
      exact ⟨i + 1, fetchPage_some page hi⟩
    · refine ⟨page * windowSize, ?_⟩
      have hgone : fetchWindow server (.anchor id) = none := by
        rw [fetchWindow, fetchChunk, Results.query, Results.from?, if_neg hid]
        rfl
      simp only [fetchPage]
      rw [hgone, Option.getD_none, fetchWindow_eq rfl, Option.getD_some]

/-! ## A row of pages -/

/-- The pages are numbered one after the other. -/
def Numbered (row : SearchRow α) : Prop := row.pages.map Prod.fst = List.range row.pages.length

omit [DecidableEq α] in
theorem Numbered.page_at (h : Numbered row) {i : Nat} {page : Nat × List α}
    (hpage : row.pages[i]? = some page) : page.1 = i := by
  have hnumber : (row.pages.map Prod.fst)[i]? = some page.1 := by
    rw [List.getElem?_map, hpage, Option.map_some]
  rw [h, List.getElem?_eq_some_iff] at hnumber
  obtain ⟨hi, hnumber⟩ := hnumber
  rw [← hnumber, List.getElem_range]

omit [DecidableEq α] in
theorem Numbered.page_lt (h : Numbered row) {page : Nat × List α} (hpage : page ∈ row.pages) :
    page.1 < row.pages.length := by
  obtain ⟨i, hi⟩ := List.mem_iff_getElem?.1 hpage
  rw [h.page_at hi]
  exact (List.getElem?_eq_some_iff.1 hi).1

omit [DecidableEq α] in
theorem Numbered.sorted_eq (h : Numbered row) : row.sorted = row.pages := by
  refine List.Pairwise.insertionSort_eq (List.pairwise_map.1 ?_)
  rw [h]
  exact List.pairwise_lt_range.imp Nat.le_of_lt

omit [DecidableEq α] in
theorem Numbered.nextPage_eq (h : Numbered row) : nextPage row = row.pages.length := by
  rw [nextPage, SearchRow.lastPage, h.sorted_eq]
  cases hlast : row.pages.getLast? with
  | none => rw [List.getLast?_eq_none_iff.1 hlast]; rfl
  | some page =>
    rw [List.getLast?_eq_getElem?] at hlast
    have hpage := h.page_at hlast
    have hlength := (List.getElem?_eq_some_iff.1 hlast).1
    simp only [Option.map_some, Option.getD_some]
    omega

omit [DecidableEq α] in
/-- A page behind the held ones takes its place behind them. -/
theorem Numbered.pages_withPage (h : Numbered row) (ids : List α) (total : Option Nat) :
    (row.withPage row.pages.length ids total).pages = row.pages ++ [(row.pages.length, ids)] := by
  have hnew : (row.pages.any fun held => held.1 = row.pages.length) = false := by
    refine List.any_eq_false.2 fun page hpage => ?_
    have := h.page_lt hpage
    simp only [decide_eq_true_eq]
    omega
  simp only [SearchRow.withPage]
  rw [hnew, if_neg Bool.false_ne_true]

theorem Numbered.pages_landed (h : Numbered row) (ids : List α) :
    (row.landed server row.pages.length ids).pages = row.pages ++ [(row.pages.length, ids)] :=
  h.pages_withPage ids (some server.ids.length)

theorem Numbered.landed (h : Numbered row) (ids : List α) :
    Numbered (row.landed server row.pages.length ids) := by
  rw [Numbered, h.pages_landed, List.map_append, h, List.length_append, List.map_singleton,
    List.length_singleton, List.range_succ]

theorem Numbered.ids_eq (h : Numbered row) :
    row.ids = firsts (row.pages.flatMap Prod.snd) := by
  rw [SearchRow.ids, h.sorted_eq]

theorem Numbered.ids_landed (h : Numbered row) (ids : List α) :
    (row.landed server row.pages.length ids).ids =
      firsts (row.pages.flatMap Prod.snd ++ ids) := by
  rw [(h.landed ids).ids_eq, h.pages_landed, List.flatMap_append, List.flatMap_singleton]

omit [DecidableEq α] in
theorem numbered_empty : Numbered (SearchRow.empty : SearchRow α) := rfl

/-- Every held id is one of the results. -/
def Listed (server : Results α) (row : SearchRow α) : Prop :=
  ∀ page ∈ row.pages, ∀ id ∈ page.2, id ∈ server.ids

theorem fetchPage_subset {page : Nat} {anchor : Option α} (h : id ∈ fetchPage server page anchor) :
    id ∈ server.ids := by
  obtain ⟨n, hn⟩ := fetchPage_span server page anchor
  rw [hn] at h
  exact List.mem_of_mem_drop (List.mem_of_mem_take h)

theorem Listed.landed (h : Listed server row) (hnumbered : Numbered row) {page : Nat}
    {anchor : Option α} :
    Listed server (row.landed server row.pages.length (fetchPage server page anchor)) := by
  intro held hheld id hid
  rw [hnumbered.pages_landed] at hheld
  rcases List.mem_append.1 hheld with hheld | hheld
  · exact h held hheld id hid
  · rw [List.mem_singleton.1 hheld] at hid
    exact fetchPage_subset hid

/-! ## The gathering ends -/

/-- The results no page holds. -/
def unheld (server : Results α) (row : SearchRow α) : Nat :=
  server.ids.countP fun id => !row.pages.any fun held => id ∈ held.2

variable {ask : SearchAsk α}

theorem next_eq (h : Numbered row) : next server ask row =
    row.landed server row.pages.length (nextIds server ask row) := by
  rw [next, h.nextPage_eq]

theorem Numbered.next (h : Numbered row) : Numbered (next server ask row) :=
  next_eq h ▸ h.landed _

theorem Listed.next (h : Listed server row) (hnumbered : Numbered row) :
    Listed server (next server ask row) := next_eq hnumbered ▸ h.landed hnumbered

/-- A page that brings an id leaves fewer to come. -/
theorem unheld_next (hnumbered : Numbered row) (hbrings : brings server ask row = true) :
    unheld server (next server ask row) < unheld server row := by
  obtain ⟨id, hid, hnew⟩ := List.any_eq_true.1 hbrings
  have hpages : (Search.next server ask row).pages =
      row.pages ++ [(row.pages.length, nextIds server ask row)] := by
    rw [next_eq hnumbered, hnumbered.pages_landed]
  refine countP_lt_countP (fun other _ hother => ?_) (fetchPage_subset hid) ?_ hnew
  · rw [hpages, List.any_append, Bool.not_or, Bool.and_eq_true] at hother
    exact hother.1
  · rw [hpages, List.any_append, Bool.not_or, Bool.and_eq_false_iff]
    refine .inr ?_
    simpa using hid

/-- **The gathering ends**, one request past the results no page holds yet. -/
theorem gathered_ends {requests : Nat} (hnumbered : Numbered row)
    (hrequests : unheld server row < requests) :
    ∃ last, gathered server ask requests row = some last := by
  induction requests generalizing row with
  | zero => omega
  | succ requests ih =>
    rw [gathered]
    split
    · split
      · next hbrings =>
        have hfewer := unheld_next hnumbered hbrings
        exact ih hnumbered.next (by omega)
      · exact ⟨_, rfl⟩
    · exact ⟨_, rfl⟩

end

end Huliho.Search
