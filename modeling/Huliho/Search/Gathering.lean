import Huliho.Lib.Steps
import Huliho.Search.Front

/-!
# What the asks of a search show

The next page is asked by anchor on the last row shown, so it overlaps the hidden rows behind that
row, and **it brings the front on as long as fewer than a page of them follow it** (`Near`). Then the
gathering stops only where the rows reach the page asked or the front is all the results
(**`gathered_front`**), and the pages are the spans of what shows (**`pages_laid`**).

A whole page of hidden rows behind a row that shows is what the next page brings, again and again:
the gathering ends on it, and the results behind never show (`skipped`).
-/

namespace Huliho.Search

section

variable {α : Type} [DecidableEq α] {server : Results α} {row : SearchRow α} {ask : SearchAsk α}

/-! ## Rows near enough -/

/-- Whether the result at a place shows. -/
def showsAt (server : Results α) (shows : α → Bool) (i : Nat) : Bool := (server.ids[i]?).any shows

/-- What an ask needs of so many held ids on so many pages, where they are not all the results.
Behind each result that shows, which the gathering may come to as the last one shown, another shows
within a page, unless that page ends the results; and where no held row shows the pages do not
overlap. -/
def Near (server : Results α) (ask : SearchAsk α) (held pages : Nat) : Prop :=
  held < server.ids.length →
    (∀ i < server.ids.length, showsAt server ask.shows i = true →
      (∀ j < held, i < j → showsAt server ask.shows j = false) →
      (server.ids.take (i + 1)).countP ask.shows < (ask.page + 1) * windowSize →
      server.ids.length ≤ i + 1 + windowSize ∨
        ∃ j < i + 1 + windowSize, i < j ∧ showsAt server ask.shows j = true) ∧
    ((∀ i < held, showsAt server ask.shows i = false) → held = pages * windowSize)

omit [DecidableEq α] in
theorem Near.mono {held pages held' pages' : Nat} (h : Near server ask held pages)
    (hheld : held ≤ held')
    (hnone : (∀ i < held', showsAt server ask.shows i = false) → held' < server.ids.length →
      held' = pages' * windowSize) :
    Near server ask held' pages' := fun hmore =>
  ⟨fun i hi hshows hlast => (h (by omega)).1 i hi hshows fun j hj => hlast j (by omega),
    fun hall => hnone hall hmore⟩

/-! ## The gathering -/

omit [DecidableEq α] in
theorem showsAt_eq {shows : α → Bool} {i : Nat} {id : α} (h : server.ids[i]? = some id) :
    showsAt server shows i = shows id := by
  rw [showsAt, h, Option.any_some]

/-- The last row a front shows, its place in the results and the rows up to it. -/
theorem Held.last_shown (h : Held server row) {shows : α → Bool} {id : α}
    (hlast : (row.shown server shows).getLast? = some id) :
    ∃ i < row.ids.length, server.ids[i]? = some id ∧ showsAt server shows i = true ∧
      (∀ j < row.ids.length, i < j → showsAt server shows j = false) ∧
      (server.ids.take (i + 1)).countP shows = (row.shown server shows).length := by
  rw [h.shown_eq] at hlast ⊢
  obtain ⟨i, hi, hshows, hbehind, hcount⟩ := filter_getLast? hlast
  have hlt := (List.getElem?_eq_some_iff.1 hi).1
  have hplace : ∀ j < row.ids.length, row.ids[j]? = server.ids[j]? := by
    intro j hj
    rw [h.front, List.getElem?_take, if_pos hj]
  refine ⟨i, hlt, hplace i hlt ▸ hi, ?_, fun j hj hij => ?_, ?_⟩
  · rw [showsAt_eq (hplace i hlt ▸ hi), hshows]
  · have hj' : row.ids[j]? = some row.ids[j] := List.getElem?_eq_getElem hj
    rw [showsAt_eq (hplace j hj ▸ hj'), hbehind j _ hij hj']
  · rw [← hcount, h.front, List.take_take, Nat.min_eq_left (by omega)]

/-- With no row shown, no held place shows. -/
theorem Held.none_shown (h : Held server row) {shows : α → Bool}
    (hnone : (row.shown server shows).getLast? = none) {i : Nat} (hi : i < row.ids.length) :
    showsAt server shows i = false := by
  rw [h.shown_eq, List.getLast?_eq_none_iff, List.filter_eq_nil_iff] at hnone
  have hplace : server.ids[i]? = some row.ids[i] := by
    rw [← List.getElem?_eq_getElem hi]
    conv_rhs => rw [h.front]
    rw [List.getElem?_take, if_pos hi]
  rw [showsAt_eq hplace]
  exact Bool.not_eq_true _ ▸ hnone _ (List.getElem_mem hi)

/-- **Where rows are near enough the next page starts within the front and goes beyond it**, unless
the front is all the results. -/
theorem Front.next_span (h : Front server row)
    (hnear : Near server ask row.ids.length row.pages.length)
    (hgathers : gathers server ask row = true) :
    ∃ a ≤ row.ids.length, nextIds server ask row = (server.ids.drop a).take windowSize ∧
      (row.ids.length < a + windowSize ∨ server.ids.length ≤ max row.ids.length (a + windowSize)) ∧
      ((∀ i < row.ids.length, showsAt server ask.shows i = false) → a = row.ids.length) := by
  rw [gathers, Bool.and_eq_true, decide_eq_true_eq] at hgathers
  rw [nextIds, h.numbered.nextPage_eq]
  cases hlast : (row.shown server ask.shows).getLast? with
  | some id =>
    obtain ⟨i, hi, hplace, hshows, hbehind, hcount⟩ := h.last_shown hlast
    refine ⟨i + 1, hi, fetchPage_some _ hplace, ?_, fun hnone => ?_⟩
    · rcases Nat.lt_or_ge row.ids.length server.ids.length with hmore | hall
      case inr => exact .inr (by omega)
      rcases (hnear hmore).1 i (by omega) hshows hbehind (by omega) with hend | ⟨j, hj, hij, hnext⟩
      · exact .inr (by omega)
      · refine .inl ?_
        rcases Nat.lt_or_ge j row.ids.length with hheld | hheld
        · rw [hbehind j hheld hij] at hnext
          cases hnext
        · omega
    · rw [hnone i hi] at hshows
      cases hshows
  | none =>
    have hnone : ∀ i < row.ids.length, showsAt server ask.shows i = false :=
      fun i hi => h.none_shown hlast hi
    refine ⟨row.ids.length, Nat.le_refl _, ?_, .inl (by rw [windowSize]; omega), fun _ => rfl⟩
    rw [fetchPage_none]
    rcases Nat.lt_or_ge row.ids.length server.ids.length with hmore | hall
    · rw [(hnear hmore).2 hnone]
    · have hcapacity := h.capacity
      rw [List.drop_eq_nil_of_le (by omega), List.drop_eq_nil_of_le (by omega)]

/-- A page that brings no id the search did not hold leaves the ids as they are. -/
theorem ids_next_of_not_brings (h : Numbered row) (hbrings : brings server ask row = false) :
    (next server ask row).ids = row.ids := by
  rw [next_eq h, h.ids_landed, h.ids_eq]
  refine firsts_append_of_subset fun id hid => ?_
  have hheld := List.any_eq_false.1 hbrings id hid
  simp only [Bool.not_eq_true, Bool.not_eq_false', List.any_eq_true, decide_eq_true_eq] at hheld
  obtain ⟨page, hpage, hid⟩ := hheld
  exact List.mem_flatMap.2 ⟨page, hpage, hid⟩

/-- **The gathering leaves a front**, and it stops only where the rows reach the page asked or the
front is all the results. -/
theorem gathered_front {requests : Nat} {last : SearchRow α} (h : Front server row)
    (hnear : Near server ask row.ids.length row.pages.length)
    (hlast : gathered server ask requests row = some last) :
    Front server last ∧ ((ask.page + 1) * windowSize ≤ (last.shown server ask.shows).length ∨
      last.ids.length = server.ids.length) := by
  induction requests generalizing row with
  | zero => cases hlast
  | succ requests ih =>
    rw [gathered] at hlast
    split at hlast
    · next hgathers =>
      obtain ⟨a, ha, hids, hbeyond, hstart⟩ := h.next_span hnear hgathers
      have hnext : next server ask row = row.landed server row.pages.length
          ((server.ids.drop a).take windowSize) := by
        rw [next_eq h.numbered, hids]
      have hfront : Front server (next server ask row) := hnext ▸ h.landed ha
      have hlength : (next server ask row).ids.length =
          min (max row.ids.length (a + windowSize)) server.ids.length := by
        rw [hnext, (h.toHeld.landed ha).2, List.length_take]
      have hle := h.length_le
      split at hlast
      · refine ih hfront (hnear.mono (by omega) fun hnone hmore => ?_) hlast
        have hold := hstart fun i hi => hnone i (by omega)
        have hpages : (next server ask row).pages.length = row.pages.length + 1 := by
          rw [next_eq h.numbered, h.numbered.pages_landed, List.length_append,
            List.length_singleton]
        have heven := (hnear (by omega)).2 fun i hi => hnone i (by omega)
        rw [hpages, Nat.succ_mul]
        omega
      · next hbrings =>
        obtain rfl := Option.some.inj hlast
        have hsame := congrArg List.length
          (ids_next_of_not_brings h.numbered (Bool.not_eq_true _ ▸ hbrings))
        exact ⟨hfront, .inr (by omega)⟩
    · next hstop =>
      obtain rfl := Option.some.inj hlast
      refine ⟨h, ?_⟩
      rw [gathers, Bool.and_eq_true, decide_eq_true_eq, not_and, Bool.not_eq_true] at hstop
      rcases Nat.lt_or_ge (row.shown server ask.shows).length ((ask.page + 1) * windowSize) with
        hshort | hreached
      · exact .inr (h.ends (hstop hshort))
      · exact .inl hreached

/-! ## The pages of a run -/

/-- The rows that show, in the server's order. -/
def visible (server : Results α) (shows : α → Bool) : List α := server.ids.filter shows

omit [DecidableEq α] in
theorem visible_split (server : Results α) (n : Nat) (shows : α → Bool) :
    visible server shows =
      (server.ids.take n).filter shows ++ (server.ids.drop n).filter shows := by
  rw [visible, ← List.filter_append, List.take_append_drop]

/-- A front that reaches a page shows the page's span of all that shows. -/
theorem Front.page_rows (h : Front server row)
    (hreach : (ask.page + 1) * windowSize ≤ (row.shown server ask.shows).length ∨
      row.ids.length = server.ids.length) :
    (pageFrom server ask.shows row ask.page).rows =
      ((visible server ask.shows).drop (ask.page * windowSize)).take windowSize := by
  have hshown : row.shown server ask.shows =
      (server.ids.take row.ids.length).filter ask.shows := by
    rw [h.shown_eq, ← h.front]
  simp only [pageFrom]
  rw [visible_split server row.ids.length, hshown]
  rcases hreach with hreached | hall
  · rw [Nat.succ_mul, hshown] at hreached
    rw [span_append_left hreached]
  · rw [hall, List.drop_length, List.filter_nil, List.append_nil]

/-- A front of all the results has the exact total. -/
theorem Front.page_total (h : Front server row) (hall : row.ids.length = server.ids.length) :
    (pageFrom server ask.shows row ask.page).total =
      some (visible server ask.shows).length := by
  have hshown : row.shown server ask.shows = visible server ask.shows := by
    rw [h.shown_eq, h.front, hall, List.take_length]
    rfl
  have hle : (visible server ask.shows).length ≤ server.ids.length := List.length_filter_le _ _
  simp only [pageFrom]
  rw [h.threads_eq, hshown, hall, h.total]
  split
  · rw [Option.map_some]
    congr 1
    omega
  · rfl

/-- A front that shows the last result is all the results, where it shows all there is to show. -/
theorem Front.all_of_last (h : Front server row)
    (hreach : (visible server ask.shows).length ≤ (row.shown server ask.shows).length)
    (hlast : showsAt server ask.shows (server.ids.length - 1) = true) :
    row.ids.length = server.ids.length := by
  have hle := h.length_le
  rcases Nat.lt_or_ge row.ids.length server.ids.length with hmore | hall
  case inr => omega
  have hsplit := congrArg List.length
    (visible_split server row.ids.length ask.shows)
  rw [List.length_append, ← h.front, ← h.shown_eq] at hsplit
  have hnone : (server.ids.drop row.ids.length).filter ask.shows = [] :=
    List.length_eq_zero_iff.1 (by omega)
  cases hplace : server.ids[server.ids.length - 1]? with
  | none =>
    rw [showsAt, hplace] at hlast
    cases hlast
  | some id =>
    have hbehind : id ∈ server.ids.drop row.ids.length := by
      refine List.mem_of_getElem? (i := server.ids.length - 1 - row.ids.length) ?_
      rw [List.getElem?_drop, Nat.add_sub_cancel' (by omega), hplace]
    rw [showsAt_eq hplace] at hlast
    exact absurd hlast (List.filter_eq_nil_iff.1 hnone id hbehind)

/-- The ids and the pages the gathering of an ask starts from. -/
def opened (server : Results α) (held : Option (SearchRow α)) (ask : SearchAsk α) : Nat × Nat :=
  match if ask.again && ask.page = 0 then none else held with
  | some row => (row.ids.length, row.pages.length)
  | none => (min windowSize server.ids.length, 1)

/-- What an ask needs of the search as the account holds it. -/
def NearAsk (server : Results α) (held : Option (SearchRow α)) (ask : SearchAsk α) : Prop :=
  Near server ask (opened server held ask).1 (opened server held ask).2

/-- One ask as a step: the search as it is held behind it. -/
def searchStep (server : Results α) (held : Option (SearchRow α)) (ask : SearchAsk α) :
    Option (Option (SearchRow α)) :=
  (searchWindow server ask (server.ids.length + 1) held).map fun found => some found.1

/-- A search an account holds has numbered pages. -/
def Paged (held : Option (SearchRow α)) : Prop := ∀ row, held = some row → Numbered row

/-- A search an account holds has a front of the results. -/
def Fronted (server : Results α) (held : Option (SearchRow α)) : Prop :=
  ∀ row, held = some row → Front server row

theorem firstGathered_cases (server : Results α) (ask : SearchAsk α)
    (held : Option (SearchRow α)) :
    (∃ row, held = some row ∧ firstGathered server ask held = row ∧
      opened server held ask = (row.ids.length, row.pages.length)) ∨
    (firstGathered server ask held =
        SearchRow.empty.landed server 0 (fetchPage server 0 none) ∧
      opened server held ask = (min windowSize server.ids.length, 1)) := by
  rw [firstGathered, opened]
  cases (ask.again && decide (ask.page = 0)) with
  | true => exact .inr ⟨rfl, rfl⟩
  | false =>
    cases held with
    | none => exact .inr ⟨rfl, rfl⟩
    | some row => exact .inl ⟨row, rfl, rfl, rfl⟩

theorem Paged.firstGathered {held : Option (SearchRow α)} (h : Paged held)
    (server : Results α) (ask : SearchAsk α) :
    Numbered (firstGathered server ask held) := by
  rcases firstGathered_cases server ask held with
    ⟨row, hheld, hfirst, -⟩ | ⟨hfirst, -⟩
  · exact hfirst ▸ h row hheld
  · exact hfirst ▸ numbered_empty.landed _

theorem Fronted.firstGathered {held : Option (SearchRow α)} (h : Fronted server held)
    (ask : SearchAsk α) :
    Front server (firstGathered server ask held) ∧ opened server held ask =
      ((firstGathered server ask held).ids.length,
        (firstGathered server ask held).pages.length) := by
  rcases firstGathered_cases server ask held with
    ⟨row, hheld, hfirst, hopened⟩ | ⟨hfirst, hopened⟩
  · exact hfirst ▸ ⟨h row hheld, hopened⟩
  · obtain ⟨hfront, hids⟩ := front_opened server
    rw [hfirst, hopened]
    refine ⟨hfront, Prod.ext ?_ rfl⟩
    rw [hids, List.length_take]

/-- Gathering keeps the pages numbered. -/
theorem Numbered.gathered {requests : Nat} {last : SearchRow α} (h : Numbered row)
    (hlast : gathered server ask requests row = some last) : Numbered last := by
  induction requests generalizing row with
  | zero => cases hlast
  | succ requests ih =>
    rw [Search.gathered] at hlast
    split at hlast
    · split at hlast
      · exact ih h.next hlast
      · exact Option.some.inj hlast ▸ h.next
    · exact Option.some.inj hlast ▸ h

/-- **Every ask ends**: a request for each result and one more are enough. -/
theorem searchWindow_ends {held : Option (SearchRow α)} (h : Paged held)
    (server : Results α) (ask : SearchAsk α) :
    ∃ found, searchWindow server ask (server.ids.length + 1) held = some found := by
  have hfew : unheld server (firstGathered server ask held) < server.ids.length + 1 :=
    Nat.lt_succ_of_le List.countP_le_length
  obtain ⟨last, hlast⟩ := gathered_ends (h.firstGathered server ask) hfew
  exact ⟨_, by rw [searchWindow, hlast, Option.map_some]⟩

theorem Paged.step {held next : Option (SearchRow α)} (h : Paged held)
    (hstep : searchStep server held ask = some next) : Paged next := by
  obtain ⟨found, hfound, rfl⟩ := Option.map_eq_some_iff.1 hstep
  obtain ⟨last, hlast, rfl⟩ := Option.map_eq_some_iff.1 hfound
  rintro row hrow
  exact Option.some.inj hrow ▸ (h.firstGathered server ask).gathered hlast

theorem Fronted.step {held next : Option (SearchRow α)} (h : Fronted server held)
    (hnear : NearAsk server held ask) (hstep : searchStep server held ask = some next) :
    Fronted server next := by
  obtain ⟨found, hfound, rfl⟩ := Option.map_eq_some_iff.1 hstep
  obtain ⟨last, hlast, rfl⟩ := Option.map_eq_some_iff.1 hfound
  obtain ⟨hfront, hopened⟩ := h.firstGathered ask
  rw [NearAsk, hopened] at hnear
  rintro row hrow
  exact Option.some.inj hrow ▸ (gathered_front hfront hnear hlast).1

/-- **The pages of a search are the spans of what shows.** Behind any asks, of any pages in any order
and whatever showed at each, an ask ends. Where rows were near enough at every ask its page is its
span of the results that show, in the server's order, and the total is exact on a page that comes
short and on a full last page that ends on the last result. -/
theorem pages_laid {asks : List (SearchAsk α)} {held : Option (SearchRow α)}
    (hrun : runs (searchStep server) none asks = some held) (ask : SearchAsk α) :
    ∃ row page, searchWindow server ask (server.ids.length + 1) held = some (row, page) ∧
      (Meets (searchStep server) (NearAsk server) none (asks ++ [ask]) →
        page.rows = ((visible server ask.shows).drop (ask.page * windowSize)).take windowSize ∧
        ((visible server ask.shows).length < (ask.page + 1) * windowSize ∨
            (visible server ask.shows).length = (ask.page + 1) * windowSize ∧
              showsAt server ask.shows (server.ids.length - 1) = true →
          page.total = some (visible server ask.shows).length)) := by
  have hpaged : Paged held :=
    runs_keeps (fun _ _ _ h (_ : True) hstep => h.step hstep) (fun _ hnone => by cases hnone)
      (meets_true _ _) hrun
  obtain ⟨⟨row, page⟩, hfound⟩ := searchWindow_ends hpaged server ask
  refine ⟨row, page, hfound, fun hmeets => ?_⟩
  have hfronted : Fronted server held :=
    runs_keeps (fun _ _ _ h hnear hstep => h.step hnear hstep) (fun _ hnone => by cases hnone)
      hmeets.append_left hrun
  have hnear := (hmeets.append_right hrun).1
  obtain ⟨hfront, hopened⟩ := hfronted.firstGathered ask
  rw [NearAsk, hopened] at hnear
  obtain ⟨last, hlast, hpage⟩ := Option.map_eq_some_iff.1 hfound
  obtain ⟨rfl, rfl⟩ := Prod.mk.inj hpage
  obtain ⟨hfront, hreach⟩ := gathered_front hfront hnear hlast
  have hle : (last.shown server ask.shows).length ≤ (visible server ask.shows).length := by
    rw [hfront.shown_eq, hfront.front, visible_split server last.ids.length, List.length_append]
    omega
  refine ⟨hfront.page_rows hreach, fun hends => hfront.page_total ?_⟩
  rcases hreach with hreached | hall
  · rcases hends with hshort | ⟨hfull, hends⟩
    · omega
    · exact hfront.all_of_last (by omega) hends
  · exact hall

end

/-! ## Three results, one of them hidden -/

/-- Three results, each a thread of its own. -/
def three : Results Nat where
  ids := [0, 1, 2]
  thread := id
  limit := 100
  limit_pos := by decide
  apart := by decide

/-- An ask of a page where a change took the middle one out of the scope. -/
def middleHidden (page : Nat) : SearchAsk Nat := ⟨page, false, fun id => id ≠ 1⟩

theorem nearAsk_of_three {held : Option (SearchRow Nat)} {page : Nat}
    (h : (opened three held (middleHidden page)).1 = 3) :
    NearAsk three held (middleHidden page) := by
  intro hmore
  rw [h] at hmore
  exact absurd hmore (by decide)

theorem three_laid : ∃ row page,
    searchWindow three (middleHidden 0) 4
        (some ⟨some 3, [(0, [0, 1, 2])], [(0, 0), (1, 1), (2, 2)]⟩) = some (row, page) ∧
      page.rows = [0, 2] ∧ page.total = some 2 := by
  have hrun : runs (searchStep three) none [middleHidden 1] =
      some (some ⟨some 3, [(0, [0, 1, 2])], [(0, 0), (1, 1), (2, 2)]⟩) := by decide
  obtain ⟨row, page, hfound, hright⟩ := pages_laid hrun (middleHidden 0)
  obtain ⟨hrows, htotal⟩ := hright ⟨nearAsk_of_three rfl, nearAsk_of_three rfl, trivial⟩
  exact ⟨row, page, hfound, hrows, htotal (.inl (by decide))⟩

/-! ## A page of hidden rows -/

/-- Results of which each is a thread of its own. -/
def plain (n : Nat) : Results Nat where
  ids := List.range n
  thread := id
  limit := 100
  limit_pos := by decide
  apart := by rw [List.map_id]; exact List.nodup_range

/-- **A whole page of hidden rows behind a row that shows ends the gathering**: of two hundred and
one results the first and the last show, and the first page has the first alone with a total of
two. -/
theorem skipped : ¬ ∀ (server : Results Nat) (ask : SearchAsk Nat) (row : SearchRow Nat)
    (page : ListPage Nat), searchWindow server ask (server.ids.length + 1) none = some (row, page) →
      page.rows = ((visible server ask.shows).drop (ask.page * windowSize)).take windowSize := by
  intro h
  have hfound : (searchWindow (plain 201) ⟨0, false, fun id => id = 0 ∨ id = 200⟩ 202 none).map
      (fun found => found.2.rows) = some [0] := by
    decide +kernel
  obtain ⟨⟨row, page⟩, hfound, hrows⟩ := Option.map_eq_some_iff.1 hfound
  have hright := h _ _ row page hfound
  rw [hrows] at hright
  revert hright
  decide +kernel

end Huliho.Search
