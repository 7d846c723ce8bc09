import Huliho.Lib.Ranking
import Huliho.Listing.Search
import Huliho.Store.Driven

/-!
# A plain listing and a search of it answer alike

The two statements differ in what they range over, in how they find the first email of a thread and
in how they count up to an anchor. What they share is a list of places, a received time and an id,
in strict order: the emails that lie in the mailbox, pass the keyword conditions and with threads
collapsed are the first of theirs (`Shown`). Both answers are one window over that list
(`Window.over`), and two lists in strict order with the same members are the same list, so
**`query_eq_search`** holds of every window.
-/

namespace Huliho.Listing

/-! ## Places -/

/-- Where an email stands: the time it was received at and its id. -/
abbrev Place := Int × EmailId

def Place.Newer (a b : Place) : Prop := b.1 < a.1 ∨ (a.1 = b.1 ∧ a.2 < b.2)

/-- The order of a result; oldest first is the exact reverse of newest first. -/
def Place.Before (ascending : Bool) (a b : Place) : Prop :=
  if ascending then b.Newer a else a.Newer b

instance : DecidableRel Place.Newer := fun a b =>
  inferInstanceAs (Decidable (b.1 < a.1 ∨ (a.1 = b.1 ∧ a.2 < b.2)))

instance (ascending : Bool) : DecidableRel (Place.Before ascending) := fun a b =>
  inferInstanceAs (Decidable (if ascending then b.Newer a else a.Newer b))

instance : IsStrictTotalOrder Place Place.Newer where
  irrefl a h := by
    rcases h with h | h
    · exact lt_irrefl _ h
    · exact lt_irrefl _ h.2
  trans a b c hab hbc := by
    rcases hab with hab | ⟨htime, hab⟩ <;> rcases hbc with hbc | ⟨htime', hbc⟩
    · exact .inl (hbc.trans hab)
    · exact .inl (htime' ▸ hab)
    · exact .inl (htime ▸ hbc)
    · exact .inr ⟨htime.trans htime', hab.trans hbc⟩
  trichotomous a b hab hba := by
    simp only [Place.Newer, not_or, not_and, not_lt] at hab hba
    have htime : a.1 = b.1 := le_antisymm hab.1 hba.1
    exact Prod.ext htime (le_antisymm (hba.2 htime.symm) (hab.2 htime))

instance (ascending : Bool) : IsStrictTotalOrder Place (Place.Before ascending) := by
  cases ascending
  · exact inferInstanceAs (IsStrictTotalOrder Place Place.Newer)
  · exact inferInstanceAs (IsStrictTotalOrder Place (Function.swap Place.Newer))

namespace Place

variable {a b : Place}

theorem before_false : Before false a b ↔ a.1 > b.1 ∨ (a.1 = b.1 ∧ a.2 < b.2) := Iff.rfl

theorem before_true : Before true a b ↔ a.1 < b.1 ∨ (a.1 = b.1 ∧ a.2 > b.2) := by
  show a.1 < b.1 ∨ (b.1 = a.1 ∧ b.2 < a.2) ↔ _
  rw [eq_comm (a := b.1), gt_iff_lt]

theorem not_newer : ¬ b.Newer a ↔ a.1 > b.1 ∨ (a.1 = b.1 ∧ a.2 ≤ b.2) := by
  simp only [Newer, not_or, not_and, not_lt]
  constructor
  · rintro ⟨htime, hid⟩
    rcases htime.lt_or_eq with h | h
    · exact .inl h
    · exact .inr ⟨h.symm, hid h⟩
  · rintro (h | ⟨h, hid⟩)
    · exact ⟨le_of_lt h, fun hc => absurd hc (ne_of_lt h)⟩
    · exact ⟨le_of_eq h.symm, fun _ => hid⟩

theorem not_before_false : ¬ Before false b a ↔ a.1 > b.1 ∨ (a.1 = b.1 ∧ a.2 ≤ b.2) := not_newer

theorem not_before_true : ¬ Before true b a ↔ a.1 < b.1 ∨ (a.1 = b.1 ∧ a.2 ≥ b.2) := by
  have h : ¬ Before true b a ↔ b.1 > a.1 ∨ (b.1 = a.1 ∧ b.2 ≤ a.2) := not_newer
  rw [h, eq_comm, gt_iff_lt, ge_iff_le]

end Place

/-! ## One window over places -/

/-- One window over the places of a whole result, in their order. -/
def Window.over (window : Window) (state : Nat) (places : List Place) : Option Queried :=
  let counted := if window.needsTotal then some places.length else none
  (window.position counted fun anchor => places.findIdx? fun p => p.2 = anchor).map fun position =>
    { state
      position
      ids := ((places.drop (offsetOf position)).take window.limit).map Prod.snd
      total := counted.filter fun _ => window.calculateTotal }

/-! ## The listing -/

def Membership.place (m : Membership) : Place := (m.receivedAt, m.emailId)

/-- The SQL of the order that was asked. -/
def Query.direction (query : Query) : Direction :=
  if query.ascending then OLDEST_FIRST else NEWEST_FIRST

section Listing

variable {t : Tables} {query : Query} {m n : Membership}

theorem ahead_iff : query.direction.ahead n m = true ↔
    Place.Before query.ascending (Membership.place n) (Membership.place m) := by
  unfold Query.direction
  cases query.ascending with
  | false => simp [NEWEST_FIRST, Place.before_false, Membership.place]
  | true => simp [OLDEST_FIRST, Place.before_true, Membership.place]

theorem beforeAnchor_iff {receivedAt : Int} {id : EmailId} :
    query.direction.beforeAnchor receivedAt id m = true ↔
      Place.Before query.ascending (Membership.place m) (receivedAt, id) := by
  unfold Query.direction
  cases query.ascending with
  | false => simp [NEWEST_FIRST, Place.before_false, Membership.place]
  | true => simp [OLDEST_FIRST, Place.before_true, Membership.place]

theorem order_iff : query.direction.order n m = true ↔
    ¬ Place.Before query.ascending (Membership.place m) (Membership.place n) := by
  unfold Query.direction
  cases query.ascending with
  | false => simp [NEWEST_FIRST, Place.not_before_false, Membership.place]
  | true => simp [OLDEST_FIRST, Place.not_before_true, Membership.place]

/-- The places of a whole listing, in its order. -/
def listed (t : Tables) (query : Query) : List Place :=
  ((query.direction.rows t query).insertionSort fun n m => query.direction.order n m = true).map
    Membership.place

theorem mem_listed {p : Place} :
    p ∈ listed t query ↔ p ∈ (query.direction.rows t query).map Membership.place := by
  rw [listed, ((List.perm_insertionSort _ _).map _).mem_iff]

/-- An email is a member of a mailbox once. -/
theorem rows_nodup :
    (((query.direction.rows t query).map Membership.place).map Prod.snd).Nodup := by
  have hmailbox : ∀ k ∈ query.direction.rows t query, k.mailboxId = query.mailbox := fun k hk =>
    of_decide_eq_true (Bool.and_eq_true_iff.1 (Bool.and_eq_true_iff.1 (List.mem_filter.1 hk).2).1).1
  rw [List.map_map, List.Nodup, List.pairwise_map]
  refine (t.memberships.apart.filter _).imp_of_mem fun {m n} hm hn hapart hid => hapart ⟨hid, ?_⟩
  rw [hmailbox m hm, hmailbox n hn]

theorem listed_before : (listed t query).Pairwise (Place.Before query.ascending) :=
  pairwise_sorted (fun n m => order_iff (n := n) (m := m)) (rows_nodup.of_map _)

/-- The index of an anchor is where its place stands. -/
theorem indexOf_eq (anchor : EmailId) : indexOf t query query.direction anchor =
    (listed t query).findIdx? fun p => p.2 = anchor := by
  unfold indexOf
  cases hfound : (query.direction.rows t query).find? fun m => m.emailId = anchor with
  | none =>
    rw [Option.map_none, eq_comm, List.findIdx?_eq_none_iff]
    intro p hp
    obtain ⟨m, hm, rfl⟩ := List.mem_map.1 (mem_listed.1 hp)
    exact decide_eq_false fun hc => List.find?_eq_none.1 hfound m hm (decide_eq_true hc)
  | some found =>
    have hid : found.emailId = anchor := by simpa using List.find?_some hfound
    have hin : Membership.place found ∈ listed t query :=
      mem_listed.2 (List.mem_map_of_mem (List.mem_of_find?_eq_some hfound))
    have hplace : ∀ a ∈ listed t query, ∀ b ∈ listed t query, a.2 = b.2 → a = b :=
      fun a ha b hb => List.inj_on_of_nodup_map rows_nodup (mem_listed.1 ha) (mem_listed.1 hb)
    have hindex := findIdx?_eq_countP listed_before hplace hin
    subst hid
    rw [Option.map_some, eq_comm]
    refine hindex.trans ?_
    rw [listed,
      ((List.perm_insertionSort _ _).map _).countP_eq, List.countP_map]
    congr 2
    funext m
    exact Bool.eq_iff_iff.2 (decide_eq_true_iff.trans beforeAnchor_iff.symm)

/-- **A plain listing is a window over its places.** -/
theorem query?_over (window : Window) :
    query? t query window = window.over (stateOf t) (listed t query) := by
  have htotal : total t query query.direction = (listed t query).length := by
    rw [listed, List.length_map, List.length_insertionSort, total]
  have hindex : indexOf t query query.direction =
      fun anchor => (listed t query).findIdx? fun p => p.2 = anchor := funext indexOf_eq
  have hids : ∀ position limit, ids t query query.direction position limit =
      (((listed t query).drop (offsetOf position)).take limit).map Prod.snd := by
    intro position limit
    rw [listed, ← List.map_drop, ← List.map_take, List.map_map]
    rfl
  show (window.position _ (indexOf t query query.direction)).map _ = _
  simp only [Query.direction] at htotal hindex hids
  simp only [Window.over, htotal, hindex, hids, Query.direction]

end Listing

/-! ## The search -/

def Found.place (row : Found) : Place := (row.receivedAt, row.id)

section Search

variable {t : Tables} {search : Search} {a b : Found}

theorem search_order_iff : search.order a b = true ↔
    ¬ Place.Before search.ascending (Found.place b) (Found.place a) := by
  unfold Search.order
  cases search.ascending with
  | false => simp [Place.not_before_false, Found.place]
  | true => simp [Place.not_before_true, Found.place]

/-- The places of rows, in the order of a search. -/
def sifted (search : Search) (rows : List Found) : List Place :=
  (search.sorted rows).map Found.place

theorem mem_sifted {p : Place} {rows : List Found} :
    p ∈ sifted search rows ↔ p ∈ rows.map Found.place := by
  rw [sifted, Search.sorted, ((List.perm_insertionSort _ _).map _).mem_iff]

theorem sifted_before {rows : List Found} (h : (rows.map Found.place).Nodup) :
    (sifted search rows).Pairwise (Place.Before search.ascending) :=
  pairwise_sorted (fun a b => search_order_iff (a := a) (b := b)) h

/-- **A search is a window over its places.** -/
theorem search?_over (window : Window) :
    search? t search window = window.over (stateOf t) (sifted search (kept t search)) := by
  have htotal : search.total t = (sifted search (kept t search)).length := by
    rw [sifted, Search.sorted, List.length_map, List.length_insertionSort, Search.total]
  have hindex : search.indexOf t =
      fun anchor => (sifted search (kept t search)).findIdx? fun p => p.2 = anchor := by
    funext anchor
    rw [sifted, List.findIdx?_map]
    exact (find?_zipIdx (fun row : Found => row.id = anchor) _ 0).trans Option.map_id'
  have hids : ∀ position limit, search.ids t position limit =
      (((sifted search (kept t search)).drop (offsetOf position)).take limit).map Prod.snd := by
    intro position limit
    rw [sifted, ← List.map_drop, ← List.map_take, List.map_map]
    rfl
  simp only [search?, Window.over, htotal, hindex, hids]

end Search

/-! ## The emails both show -/

/-- A plain listing asked of the search: no hits, and the conditions of the query alone. -/
def Query.asSearch (query : Query) : Search where
  hits := none
  inMailbox := some query.mailbox
  otherThan := none
  hasKeyword := query.hasKeyword
  notKeyword := query.notKeyword
  after := none
  before := none
  hasAttachment := none
  ascending := query.ascending
  collapseThreads := query.collapseThreads

def EmailRecord.place (e : EmailRecord) : Place := (e.receivedAt, e.id)

/-- The keyword conditions, of the row. -/
def Query.wants (query : Query) (e : EmailRecord) : Prop :=
  (∀ keyword ∈ query.hasKeyword, keyword ∈ e.keywords) ∧
    ∀ keyword ∈ query.notKeyword, keyword ∉ e.keywords

/-- An email lies in the mailbox and passes the conditions. -/
def Passes (t : Tables) (query : Query) (e : EmailRecord) : Prop :=
  MemberOf t e.id query.mailbox ∧ query.wants e

/-- The emails of a result: those that pass, and with threads collapsed the first of their thread
among these. -/
def Shown (t : Tables) (query : Query) (e : EmailRecord) : Prop :=
  Passes t query e ∧ (query.collapseThreads → ∀ o ∈ t.emails, o.threadId = e.threadId →
    Passes t query o →
      ¬ Place.Before query.ascending (EmailRecord.place o) (EmailRecord.place e))

section Shown

variable {t : Tables} {query : Query}

theorem carries_iff {e : EmailRecord} (he : e ∈ t.emails) {keyword : String} :
    carries t e.id keyword = true ↔ keyword ∈ e.keywords := by
  simp only [carries, List.any_eq_true, Bool.and_eq_true, decide_eq_true_eq]
  constructor
  · rintro ⟨k, hk, hid, hin⟩
    rwa [← EmailRecord.eq_of_id hk he hid]
  · exact fun hin => ⟨e, he, rfl, hin⟩

theorem keywordTest_iff {e : EmailRecord} (he : e ∈ t.emails) :
    keywordTest t query e.id = true ↔ query.wants e := by
  have hcarries : ∀ keyword, carries t e.id keyword = true ↔ keyword ∈ e.keywords :=
    fun _ => carries_iff he
  simp only [keywordTest, Query.wants, Bool.and_eq_true, Option.all_eq_true,
    Bool.not_eq_true', ← Bool.not_eq_true, hcarries, Option.mem_def]

/-- A membership of the mailbox stands at the place of its email. -/
theorem place_of_timed (ht : Timed t) {m : Membership} (hm : m ∈ t.memberships) :
    ∃ e ∈ t.emails, e.id = m.emailId ∧ EmailRecord.place e = Membership.place m := by
  obtain ⟨e, he, hid, htime⟩ := ht m hm
  exact ⟨e, he, hid, Prod.ext htime hid⟩

theorem mem_rows {m : Membership} : m ∈ query.direction.rows t query ↔
    m ∈ t.memberships ∧ m.mailboxId = query.mailbox ∧ keywordTest t query m.emailId = true ∧
      (query.collapseThreads → ¬ behind t query query.direction m = true) := by
  simp only [Direction.rows, List.mem_filter, Bool.and_eq_true, decide_eq_true_eq, Bool.or_eq_true,
    Bool.not_eq_true', ← Bool.not_eq_true, and_assoc, imp_iff_not_or]
  rfl

/-- A membership stands behind one of its thread where the email of it does. -/
theorem behind_iff (ht : Timed t) {m : Membership} {e : EmailRecord} (he : e ∈ t.emails)
    (hid : e.id = m.emailId) (hplace : EmailRecord.place e = Membership.place m)
    (hmailbox : m.mailboxId = query.mailbox) :
    behind t query query.direction m = true ↔ ∃ o ∈ t.emails, o.threadId = e.threadId ∧
      Passes t query o ∧
        Place.Before query.ascending (EmailRecord.place o) (EmailRecord.place e) := by
  simp only [behind, List.any_eq_true, Bool.and_eq_true, decide_eq_true_eq, ahead_iff, and_assoc]
  constructor
  · rintro ⟨e', he', hid', o, ho, hthread, n, hn, hemail, hin, htest, hahead⟩
    obtain rfl : e' = e := EmailRecord.eq_of_id he' he (hid'.trans hid.symm)
    obtain ⟨o', ho', hido, hplaceo⟩ := place_of_timed ht hn
    obtain rfl : o' = o := EmailRecord.eq_of_id ho' ho (hido.trans hemail)
    exact ⟨o', ho, hthread, ⟨⟨n, hn, hemail, hin.trans hmailbox⟩, (keywordTest_iff ho).1 htest⟩,
      by rwa [hplace, hplaceo]⟩
  · rintro ⟨o, ho, hthread, ⟨⟨n, hn, hemail, hin⟩, hwants⟩, hbefore⟩
    obtain ⟨o', ho', hido, hplaceo⟩ := place_of_timed ht hn
    obtain rfl : o' = o := EmailRecord.eq_of_id ho' ho (hido.trans hemail)
    exact ⟨e, he, hid, o', ho, hthread, n, hn, hemail, hin.trans hmailbox.symm,
      (keywordTest_iff ho).2 hwants, by rwa [← hplace, ← hplaceo]⟩

/-- **The listing shows what is shown.** -/
theorem mem_listed_iff (ht : Timed t) {p : Place} : p ∈ listed t query ↔
    ∃ e ∈ t.emails, EmailRecord.place e = p ∧ Shown t query e := by
  rw [mem_listed, List.mem_map]
  constructor
  · rintro ⟨m, hm, rfl⟩
    obtain ⟨hm, hmailbox, htest, hbehind⟩ := mem_rows.1 hm
    obtain ⟨e, he, hid, hplace⟩ := place_of_timed ht hm
    rw [← hid] at htest
    refine ⟨e, he, hplace, ⟨⟨m, hm, hid.symm, hmailbox⟩, (keywordTest_iff he).1 htest⟩, ?_⟩
    intro hc o ho hthread hpasses hbefore
    exact hbehind hc
      ((behind_iff ht he hid hplace hmailbox).2 ⟨o, ho, hthread, hpasses, hbefore⟩)
  · rintro ⟨e, he, rfl, ⟨⟨m, hm, hemail, hmailbox⟩, hwants⟩, hfirst⟩
    obtain ⟨e', he', hid, hplace⟩ := place_of_timed ht hm
    obtain rfl : e' = e := EmailRecord.eq_of_id he' he (hid.trans hemail)
    refine ⟨m, mem_rows.2 ⟨hm, hmailbox, hid ▸ (keywordTest_iff he).2 hwants, fun hc hb => ?_⟩,
      hplace.symm⟩
    obtain ⟨o, ho, hthread, hpasses, hbefore⟩ := (behind_iff ht he hid hplace hmailbox).1 hb
    exact hfirst hc o ho hthread hpasses hbefore

/-! ### The search of them -/

theorem conditions_iff {e : EmailRecord} :
    conditions t query.asSearch e = true ↔ Passes t query e := by
  simp only [conditions, Query.asSearch, Option.all_some, Option.all_none, Bool.and_true,
    Passes, MemberOf, Query.wants, Bool.and_eq_true, List.any_eq_true, Option.all_eq_true,
    decide_eq_true_eq, Option.mem_def, and_assoc]
  rfl

theorem mem_matched {row : Found} : row ∈ matched t query.asSearch ↔
    ∃ e ∈ t.emails, Passes t query e ∧ (⟨e.id, e.threadId, e.receivedAt⟩ : Found) = row := by
  simp only [matched, scanned, Query.asSearch, List.mem_map, List.mem_filter]
  exact ⟨fun ⟨e, ⟨he, hc⟩, hr⟩ => ⟨e, he, conditions_iff.1 hc, hr⟩,
    fun ⟨e, he, hc, hr⟩ => ⟨e, ⟨he, conditions_iff.2 hc⟩, hr⟩⟩

/-- No two rows of a search share a place. -/
theorem matched_nodup : ((matched t query.asSearch).map Found.place).Nodup := by
  rw [matched, List.map_map, List.Nodup, List.pairwise_map]
  refine (t.emails.apart.filter _).imp fun hapart hplace => ?_
  exact hapart.1 (congrArg Prod.snd hplace)

/-- The rows of one thread. -/
def threadRows (rows : List Found) (thread : ThreadId) : List Found :=
  rows.filter fun row => row.threadId = thread

theorem threadRows_nodup {rows : List Found} (h : (rows.map Found.place).Nodup)
    (thread : ThreadId) : ((threadRows rows thread).map Found.place).Nodup :=
  h.sublist (List.filter_sublist.map _)

theorem mem_sorted {search : Search} {rows : List Found} {row : Found} :
    row ∈ search.sorted rows ↔ row ∈ rows :=
  (List.perm_insertionSort _ _).mem_iff

/-- A row is ranked among the rows of its thread. -/
theorem mem_ranked {search : Search} {rows : List Found} {row : Found} {n : Nat} :
    (row, n) ∈ search.ranked rows ↔
      (row, n) ∈ search.rowNumber (threadRows rows row.threadId) := by
  have hthread : ∀ {thread}, (row, n) ∈ search.rowNumber (threadRows rows thread) →
      row ∈ rows ∧ row.threadId = thread := by
    intro thread h
    have hin := List.mem_filter.1 (mem_sorted.1 (List.fst_mem_of_mem_zipIdx h))
    exact ⟨hin.1, of_decide_eq_true hin.2⟩
  simp only [Search.ranked, List.mem_flatMap, List.mem_dedup, List.mem_map]
  constructor
  · rintro ⟨thread, -, h⟩
    rwa [(hthread h).2]
  · intro h
    exact ⟨row.threadId, ⟨row, (hthread h).1, rfl⟩, h⟩

/-- **What a search keeps**: the rows, or with threads collapsed the first row of each. -/
theorem mem_kept {row : Found} : row ∈ kept t query.asSearch ↔
    row ∈ matched t query.asSearch ∧ (query.collapseThreads →
      ∀ other ∈ matched t query.asSearch, other.threadId = row.threadId →
        ¬ Place.Before query.ascending (Found.place other) (Found.place row)) := by
  have hrows : ∀ (other : Found) (thread : ThreadId),
      other ∈ query.asSearch.sorted (threadRows (matched t query.asSearch) thread) ↔
        other ∈ matched t query.asSearch ∧ other.threadId = thread := by
    intro other thread
    rw [mem_sorted, threadRows, List.mem_filter, decide_eq_true_eq]
  have hone : (row, 1) ∈ query.asSearch.ranked (matched t query.asSearch) ↔
      row ∈ matched t query.asSearch ∧
        ∀ other ∈ matched t query.asSearch, other.threadId = row.threadId →
          ¬ Place.Before query.ascending (Found.place other) (Found.place row) := by
    rw [mem_ranked, Search.rowNumber,
      mem_zipIdx_one (sifted_before (threadRows_nodup matched_nodup row.threadId))]
    simp only [hrows, and_true, and_imp]
    rfl
  have hany : (∃ n, (row, n) ∈ query.asSearch.ranked (matched t query.asSearch)) ↔
      row ∈ matched t query.asSearch := by
    rw [← (hrows row row.threadId).trans (and_iff_left rfl),
      ← List.zipIdx_map_fst 1 (query.asSearch.sorted _), List.mem_map]
    simp [mem_ranked, Search.rowNumber]
  simp only [kept, List.mem_map, List.mem_filter, Prod.exists, exists_and_right, exists_eq_right]
  cases hc : query.collapseThreads with
  | false =>
    have hs : query.asSearch.collapseThreads = false := hc
    simpa [hs] using hany
  | true =>
    have hs : query.asSearch.collapseThreads = true := hc
    simpa [hs] using hone

theorem kept_nodup : ((kept t query.asSearch).map Found.place).Nodup := by
  have hsub : (kept t query.asSearch).Sublist
      ((query.asSearch.ranked (matched t query.asSearch)).map Prod.fst) :=
    List.filter_sublist.map _
  refine List.Nodup.sublist (hsub.map _) ?_
  have hranked : (query.asSearch.ranked (matched t query.asSearch)).map Prod.fst =
      ((matched t query.asSearch).map Found.threadId).dedup.flatMap fun thread =>
        query.asSearch.sorted (threadRows (matched t query.asSearch) thread) := by
    rw [Search.ranked, List.map_flatMap]
    exact List.flatMap_congr fun thread _ => List.zipIdx_map_fst _ _
  rw [hranked, List.map_flatMap, List.nodup_flatMap]
  constructor
  · intro thread _
    exact ((List.perm_insertionSort _ _).map _).nodup_iff.2 (threadRows_nodup matched_nodup thread)
  · refine (List.nodup_dedup _).imp fun {a b} hab p ha hb => hab ?_
    obtain ⟨x, hx, rfl⟩ := List.mem_map.1 ha
    obtain ⟨y, hy, hplace⟩ := List.mem_map.1 hb
    obtain ⟨hx, hxa⟩ := List.mem_filter.1 (mem_sorted.1 hx)
    obtain ⟨hy, hyb⟩ := List.mem_filter.1 (mem_sorted.1 hy)
    obtain rfl := List.inj_on_of_nodup_map matched_nodup hx hy hplace.symm
    rw [← of_decide_eq_true hxa, ← of_decide_eq_true hyb]

/-- **The search shows what is shown.** -/
theorem mem_sifted_iff {p : Place} : p ∈ sifted query.asSearch (kept t query.asSearch) ↔
    ∃ e ∈ t.emails, EmailRecord.place e = p ∧ Shown t query e := by
  rw [mem_sifted, List.mem_map]
  constructor
  · rintro ⟨row, hrow, rfl⟩
    obtain ⟨hrow, hfirst⟩ := mem_kept.1 hrow
    obtain ⟨e, he, hpasses, rfl⟩ := mem_matched.1 hrow
    refine ⟨e, he, rfl, hpasses, fun hc o ho hthread hpasses' => ?_⟩
    exact hfirst hc _ (mem_matched.2 ⟨o, ho, hpasses', rfl⟩) hthread
  · rintro ⟨e, he, rfl, hpasses, hfirst⟩
    refine ⟨_, mem_kept.2 ⟨mem_matched.2 ⟨e, he, hpasses, rfl⟩, fun hc other hother hthread => ?_⟩,
      rfl⟩
    obtain ⟨o, ho, hpasses', rfl⟩ := mem_matched.1 hother
    exact hfirst hc o ho hthread hpasses'

end Shown

/-! ## Every window -/

/-- **A plain listing and a search of it answer every window alike.** -/
theorem query_eq_search {store : Store} (h : Reachable store) (query : Query) (window : Window) :
    query? store.tables query window = search? store.tables query.asSearch window := by
  have hplaces : listed store.tables query =
      sifted query.asSearch (kept store.tables query.asSearch) := by
    have hsearch : (sifted query.asSearch (kept store.tables query.asSearch)).Pairwise
        (Place.Before query.asSearch.ascending) := sifted_before kept_nodup
    refine List.Pairwise.eq_of_mem_iff listed_before hsearch fun p => ?_
    rw [mem_listed_iff h.timed, mem_sifted_iff]
  rw [query?_over, search?_over, hplaces]

/-- The folder of the first message, its threads collapsed, around the message. -/
theorem query_eq_search_first :
    query? oneMessage.tables ⟨"mINBOX", none, some "$seen", true, true⟩
        ⟨.anchor "e" (-1), 10, true⟩ =
      search? oneMessage.tables (Query.asSearch ⟨"mINBOX", none, some "$seen", true, true⟩)
        ⟨.anchor "e" (-1), 10, true⟩ :=
  query_eq_search oneMessage_reachable _ _

end Huliho.Listing
