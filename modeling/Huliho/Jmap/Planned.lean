import Huliho.Jmap.SearchPlan
import Huliho.Mailboxes.Listed
import Huliho.Mailboxes.Mapping
import Huliho.Store.Moved

/-!
# A plan leaves no row out

Over the mailboxes a listing makes (`Kinds`) a row is a member of its folder and, in All Mail alone,
of the mailboxes of its labels (`Placed`), so the folder a scope names is either the row's own or a
label that All Mail is searched under: **`covered`**. The coarse days lie far enough out for a
server that writes its dates in any zone: **`since_le`** and **`lt_before`**. **`plan_covers`** is
both, with what holds of every plan.
-/

namespace Huliho.SearchPlan

variable {t : Tables} {filter : Filter} {snapshot : Snapshot t} {e : EmailRecord}

/-! ## What the store and the listing promise -/

/-- No store shows a label, and one mailbox at most is All Mail. -/
structure Kinds (t : Tables) : Prop where
  unlabelled : ∀ r ∈ t.mailboxes, r.row.facts.store → r.row.facts.gmailLabel = none
  oneAllMail : ∀ a ∈ t.mailboxes, ∀ b ∈ t.mailboxes, isAllMail a.row → isAllMail b.row → a = b

/-- The row is a member of nothing but what some labels make a row of its folder a member of. -/
def Placed (t : Tables) (e : EmailRecord) : Prop :=
  ∃ labels, ∀ mailbox ∈ currentMemberships t e.id,
    mailbox ∈ (Labels.read t e.folderId).memberships e.folderId labels

/-- A folder that can be opened and whose rows stand under a UIDVALIDITY. -/
def Opens (t : Tables) (folder : MailboxId) : Prop :=
  ∃ r ∈ t.mailboxes, r.row.id = folder ∧ r.row.facts.selectable ∧ r.row.facts.store ∧
    r.row.facts.uidValidity.isSome

/-- **A pass over a listing leaves mailboxes of these kinds.** -/
theorem kinds_of_pass {order : List MailboxId → List MailboxId} {mint : String → MailboxId}
    {before : Tables} {lower : String → String} {entries : List Mapping.ListEntry}
    {statuses : List Mapping.StatusEntry} {subscriptions : Mapping.Subscriptions} {gmail : Bool}
    {overrides : String → Option RoleOverride} {found : List MailboxFacts}
    (hfound : found =
      Mapping.mapWithOverrides lower entries statuses subscriptions gmail overrides)
    (hl : Write.Listing order mint found before) {letters : Letters} {flipped : Bool}
    {sequence : Nat} (h : apply order mint before found letters flipped = .ok (t, sequence)) :
    Kinds t := by
  have hlisted := apply_listed hl h
  subst hfound
  refine ⟨fun r hr hstore => ?_, fun a ha b hb hall hall' => ?_⟩
  · obtain ⟨facts, hfacts, hrow⟩ := hlisted r hr
    rw [hrow] at hstore ⊢
    have hlabel : facts.gmailLabel = none := Mapping.mapWithOverrides_store hfacts hstore
    exact hlabel
  · obtain ⟨facts, hfacts, hrow⟩ := hlisted a ha
    obtain ⟨facts', hfacts', hrow'⟩ := hlisted b hb
    have hrole : ∀ row, isAllMail row → row.facts.role = some ALL_MAIL_ROLE := fun row hrow =>
      of_decide_eq_true (Bool.and_eq_true _ _ ▸ hrow).2
    have hname := Mapping.mapWithOverrides_role hfacts hfacts' (hrole _ (hrow ▸ hall))
      (hrole _ (hrow' ▸ hall'))
    refine MailboxRecord.eq_of_imapName ha hb ?_
    rw [hrow, hrow']
    exact hname

/-- **A row whose memberships were brought to its labels is placed**: so an arrival and a
relabelling leave it. -/
theorem placed_of_replaced {id : EmailId} {receivedAt : Int} {labels : List String}
    (hid : e.id = id) :
    Placed (replaceMemberships t id receivedAt
      ((Labels.read t e.folderId).memberships e.folderId labels)) e := by
  refine ⟨labels, fun mailbox hm => ?_⟩
  rw [hid] at hm
  exact memberOf_replace_self.1 (mem_currentMemberships.1 hm)

/-! ## What a search asks -/

/-- The day a server writes for a second, in a zone so many seconds east of UTC. -/
def writtenDay (second zone : Int) : Int := (second + zone) / DAY

/-- Whether a message of this internal date passes the plan's SINCE and BEFORE keys. -/
def Plan.Takes (plan : Plan) (day : Int) : Prop :=
  (∀ since ∈ plan.since, since ≤ day) ∧ ∀ before ∈ plan.before, day < before

/-- A folder of a plan as it ought to be asked: under the name and the UIDVALIDITY of its mailbox,
and under a label exactly where the scope is the mailbox of that label, which All Mail stands
for. -/
structure AskedAs (filter : Filter) (t : Tables) (folder : Folder) : Prop where
  asRow : ∃ r ∈ t.mailboxes, searched r.row folder.label = some folder
  whole : folder.label = none →
    ∀ r ∈ t.mailboxes, filter.inMailbox = some r.row.id → r.row.facts.store
  under : ∀ label, folder.label = some label →
    (∃ r ∈ t.mailboxes, filter.inMailbox = some r.row.id ∧ r.row.facts.store = false ∧
      ∃ kept, r.row.facts.gmailLabel = some kept ∧ label = written kept) ∧
    ∃ r ∈ t.mailboxes, r.row.id = folder.id ∧ isAllMail r.row

/-- Whether a folder has the role of Junk or of Trash. -/
def RunsLast (t : Tables) (folder : Folder) : Prop :=
  ∃ r ∈ t.mailboxes, r.row.id = folder.id ∧ runsLast r.row

/-! ## Days -/

theorem fromUnixTimestamp_eq_some {second : Int} {day : Int}
    (h : fromUnixTimestamp second = some day) : day = second / DAY := by
  unfold fromUnixTimestamp at h
  dsimp only at h
  split at h
  · exact (Option.some.inj h).symm
  · cases h

theorem previousDay_eq_some {day previous : Int} (h : previousDay day = some previous) :
    previous = day - 1 := by
  unfold previousDay at h
  split at h
  · cases h
  · exact (Option.some.inj h).symm

theorem nextDay_eq_some {day next : Int} (h : nextDay day = some next) : next = day + 1 := by
  unfold nextDay at h
  split at h
  · cases h
  · exact (Option.some.inj h).symm

theorem checkedSub_eq_some {a b difference : Int} (h : checkedSub a b = some difference) :
    difference = a - b := by
  unfold checkedSub at h
  split at h
  · exact (Option.some.inj h).symm
  · cases h

/-- The SINCE day is the day before the bound's. -/
theorem since_eq_some {after : Int} {day : Int} (h : since after = some day) :
    day = after / DAY - 1 := by
  unfold since at h
  obtain ⟨first, hfirst, h⟩ := Option.bind_eq_some_iff.1 h
  obtain ⟨previous, hprevious, h⟩ := Option.bind_eq_some_iff.1 h
  rw [← fromUnixTimestamp_eq_some hfirst, ← previousDay_eq_some hprevious]
  split at h
  · exact (Option.some.inj h).symm
  · cases h

/-- The BEFORE day is two days past the last second's. -/
theorem before_eq_some {bound : Int} {day : Int} (h : before bound = some day) :
    day = (bound - 1) / DAY + 2 := by
  unfold before at h
  obtain ⟨last, hlast, h⟩ := Option.bind_eq_some_iff.1 h
  obtain ⟨first, hfirst, h⟩ := Option.bind_eq_some_iff.1 h
  obtain ⟨next, hnext, h⟩ := Option.bind_eq_some_iff.1 h
  obtain ⟨second, hsecond, h⟩ := Option.bind_eq_some_iff.1 h
  have hday : second = day := by
    split at h
    · exact Option.some.inj h
    · cases h
  rw [← hday, nextDay_eq_some hsecond, nextDay_eq_some hnext, fromUnixTimestamp_eq_some hfirst,
    checkedSub_eq_some hlast]
  omega

/-- **No zone writes a day before the SINCE day** for a second at or past the bound. -/
theorem since_le {after second zone : Int} {day : Int} (h : since after = some day)
    (hafter : after ≤ second) (hzone : -DAY ≤ zone) : day ≤ writtenDay second zone := by
  rw [since_eq_some h]
  unfold writtenDay DAY at *
  omega

/-- **No zone writes the BEFORE day or a later one** for a second before the bound. -/
theorem lt_before {bound second zone : Int} {day : Int} (h : before bound = some day)
    (hbound : second < bound) (hzone : zone ≤ DAY) : writtenDay second zone < day := by
  rw [before_eq_some h]
  unfold writtenDay DAY at *
  omega

/-- The whole second of an instant bounds whole seconds as the instant does. -/
theorem whole_le_iff (instant : Instant) (second : Int) :
    instant.whole ≤ second ↔ instant.ReachedBy second := by
  have hwithin := instant.within
  obtain ⟨hfirst, hlast⟩ := instant.inCalendar
  unfold Instant.whole Instant.ReachedBy saturatingAdd saturate minI64 maxI64
  split <;> omega

/-- A date that is read reads as the first whole second at or past it. -/
theorem seconds_eq_ok {parse : String → Option Instant} {date : String} {read : Option Int}
    (h : seconds parse (some date) = .ok read) :
    ∃ instant, parse date = some instant ∧ read = some instant.whole := by
  unfold seconds at h
  dsimp only at h
  split at h
  · cases h
  · rename_i instant hparse
    split at h
    · exact ⟨instant, hparse, (Except.ok.inj h).symm⟩
    · cases h


/-! ## Rows -/

theorem mem_rows {row : MailboxRow} : row ∈ snapshot.rows ↔ ∃ r ∈ t.mailboxes, r.row = row := by
  rw [snapshot.read.mem_iff, List.mem_map]
  exact Iff.rfl

/-- The ids of the rows are distinct. -/
theorem nodup_ids (snapshot : Snapshot t) : (snapshot.rows.map MailboxRow.id).Nodup := by
  rw [(snapshot.read.map _).nodup_iff, List.map_map]
  exact List.pairwise_map.2 (t.mailboxes.apart.imp fun h => h.1)

/-- The one row a condition holds of is the row found under it. -/
theorem find_eq_some {p : MailboxRow → Bool} {r : MailboxRecord} (hr : r ∈ t.mailboxes)
    (hp : p r.row) (hone : ∀ s ∈ t.mailboxes, p s.row → s = r) :
    snapshot.rows.find? p = some r.row := by
  cases hf : snapshot.rows.find? p with
  | none =>
    have := List.find?_eq_none.1 hf r.row (mem_rows.2 ⟨r, hr, rfl⟩)
    exact absurd hp this
  | some row =>
    obtain ⟨s, hs, rfl⟩ := mem_rows.1 (List.mem_of_find?_eq_some hf)
    rw [hone s hs (List.find?_some hf)]

theorem gmailLabel_eq_none (hg : snapshot.gmail = false) {r : MailboxRecord}
    (hr : r ∈ t.mailboxes) : r.row.facts.gmailLabel = none := by
  have := List.any_eq_false.1 hg r.row (mem_rows.2 ⟨r, hr, rfl⟩)
  simpa using this

/-! ## Folders -/

theorem searched_eq_some {row : MailboxRow} {label : Option String} {folder : Folder}
    (h : searched row label = some folder) : folder.id = row.id ∧ folder.label = label := by
  unfold searched at h
  obtain ⟨uidValidity, -, h⟩ := Option.bind_eq_some_iff.1 h
  cases h
  exact ⟨rfl, rfl⟩

/-- A folder that opens can be searched. -/
theorem Opens.searched {id : MailboxId} (h : Opens t id) (label : Option String) :
    ∃ r ∈ t.mailboxes, r.row.id = id ∧ r.row.facts.store ∧
      ∃ folder, searched r.row label = some folder ∧ folder.id = id ∧ folder.label = label := by
  obtain ⟨r, hr, rfl, hselectable, hstore, huid⟩ := h
  obtain ⟨uidValidity, huid⟩ := Option.isSome_iff_exists.1 huid
  refine ⟨r, hr, rfl, hstore, ⟨r.row.id, r.row.facts.imapName, uidValidity, label⟩, ?_, rfl, rfl⟩
  simp [SearchPlan.searched, huid, hselectable, hstore, Option.filter]

/-- A mailbox of a row is its folder, or the mailbox of a label of All Mail. -/
theorem Placed.cases (h : Placed t e) {mailbox : MailboxId}
    (hm : mailbox ∈ currentMemberships t e.id) :
    mailbox = e.folderId ∨
      (∃ r ∈ t.mailboxes, r.row.id = mailbox ∧ r.row.facts.gmailLabel.isSome) ∧
        ∃ s ∈ t.mailboxes, s.row.id = e.folderId ∧ isAllMail s.row := by
  obtain ⟨labels, h⟩ := h
  have hm := h mailbox hm
  rw [Labels.memberships, List.mem_dedup, List.mem_cons] at hm
  refine hm.imp id fun hm => ?_
  split at hm
  · rename_i hshown
    obtain ⟨label, -, hget⟩ := List.mem_filterMap.1 hm
    obtain ⟨entry, hfound, rfl⟩ := Option.map_eq_some_iff.1 hget
    have hentry := List.mem_reverse.1 (List.mem_of_find?_eq_some hfound)
    obtain ⟨r, hr, hlabel⟩ := List.mem_filterMap.1 hentry
    obtain ⟨kept, hkept, rfl⟩ := Option.map_eq_some_iff.1 hlabel
    obtain ⟨s, hs, hrole⟩ := Option.bind_eq_some_iff.1 (of_decide_eq_true hshown)
    obtain ⟨hs, hid, hstore⟩ := Table.mem_of_find? hs
    exact ⟨⟨r, hr, rfl, by rw [hkept]; rfl⟩, s, hs, hid, by simp [isAllMail, hstore, hrole]⟩
  · cases hm

/-! ## The folder of a row -/

theorem mem_beside {label : Option String} {rows : List MailboxRow} {row : MailboxRow}
    {folder : Folder} (hrow : row ∈ rows) (h : searched row label = some folder) :
    (row, folder) ∈ rows.filterMap (beside label) :=
  List.mem_filterMap.2 ⟨row, hrow, by rw [beside, h]; rfl⟩

/-- The whole folder of a row is asked as it ought to be where the scope names no label. -/
theorem AskedAs.ofWhole {r : MailboxRecord} (hr : r ∈ t.mailboxes) {folder : Folder}
    (hs : searched r.row none = some folder)
    (hscope : ∀ s ∈ t.mailboxes, filter.inMailbox = some s.row.id → s.row.facts.store) :
    AskedAs filter t folder := by
  have hlabel := (searched_eq_some hs).2
  refine ⟨⟨r, hr, by rw [hlabel]; exact hs⟩, fun _ => hscope, fun label h => ?_⟩
  rw [hlabel] at h
  cases h

/-- **The folder account's plan holds the folder of every row.** -/
theorem folderAccount_covers (hg : snapshot.gmail = false) (hp : Placed t e)
    (ho : Opens t e.folderId) (hm : filter.Meets t e) :
    ∃ entry ∈ folderAccount filter snapshot.rows, entry.2.id = e.folderId ∧
      AskedAs filter t entry.2 := by
  -- Without a label every mailbox of the row is its folder.
  have hfolder : ∀ mailbox ∈ currentMemberships t e.id, mailbox = e.folderId := by
    intro mailbox hmailbox
    rcases hp.cases hmailbox with h | ⟨⟨r, hr, -, hlabel⟩, -⟩
    · exact h
    · rw [gmailLabel_eq_none hg hr] at hlabel
      cases hlabel
  obtain ⟨r, hr, hid, hstore, folder, hs, hfid, -⟩ := ho.searched none
  have hrow : r.row ∈ snapshot.rows := mem_rows.2 ⟨r, hr, rfl⟩
  refine ⟨(r.row, folder), mem_beside (List.mem_filter.2 ⟨hrow, ?_⟩) hs, hfid,
    AskedAs.ofWhole hr hs fun s hs' hscope => ?_⟩
  · split
    · rename_i mailbox named
      obtain ⟨m, hm, hnamed⟩ := hm.scope
      rw [decide_eq_true_eq, hid, ← hfolder m hm]
      exact hnamed _ named
    · rename_i leftOut _ named
      obtain ⟨m, hm, hout⟩ := hm.outside leftOut named
      rw [decide_eq_true_eq, hid, ← hfolder m hm]
      exact hout
    · rfl
  · obtain ⟨m, hm, hnamed⟩ := hm.scope
    have hsid : s.row.id = r.row.id := by
      rw [hid, ← hfolder m hm]
      exact (hnamed _ hscope).symm
    rw [MailboxRecord.eq_of_id hs' hr hsid]
    exact hstore

/-- **The Gmail account's plan holds the folder of every row**, under the label the scope names. -/
theorem gmailAccount_covers (hk : Kinds t) (hp : Placed t e) (ho : Opens t e.folderId)
    (hm : filter.Meets t e) :
    ∃ entry ∈ gmailAccount filter snapshot.rows, entry.2.id = e.folderId ∧
      AskedAs filter t entry.2 := by
  cases hin : filter.inMailbox with
  | some mailbox =>
    obtain ⟨m, hmem, hnamed⟩ := hm.scope
    obtain rfl : m = mailbox := hnamed _ hin
    unfold gmailAccount
    simp only [hin]
    rcases hp.cases hmem with rfl | ⟨⟨r, hr, rfl, hlabel⟩, s, hs, hsid, hall⟩
    · -- The scope is the row's folder.
      obtain ⟨r, hr, hid, hstore, folder, hs, hfid, -⟩ := ho.searched none
      have hfind : snapshot.rows.find? (fun row => row.id = e.folderId) = some r.row :=
        find_eq_some hr (by simpa using hid) fun s hs h =>
          MailboxRecord.eq_of_id hs hr ((of_decide_eq_true h).trans hid.symm)
      rw [hfind]
      dsimp only
      rw [if_pos hstore, beside, hs]
      refine ⟨(r.row, folder), List.mem_singleton.2 rfl, hfid,
        AskedAs.ofWhole hr hs fun s hs' hscope => ?_⟩
      rw [hin] at hscope
      rw [MailboxRecord.eq_of_id hs' hr ((Option.some.inj hscope).symm.trans hid.symm)]
      exact hstore
    · -- The scope is a label, and the row lies in All Mail.
      have hstore : r.row.facts.store = false := by
        cases h : r.row.facts.store with
        | false => rfl
        | true =>
          rw [hk.unlabelled r hr h] at hlabel
          cases hlabel
      obtain ⟨kept, hkept⟩ := Option.isSome_iff_exists.1 hlabel
      have hfind : snapshot.rows.find? (fun row => row.id = r.row.id) = some r.row :=
        find_eq_some hr (by simp) fun s hs h => MailboxRecord.eq_of_id hs hr (of_decide_eq_true h)
      have hfindAll : snapshot.rows.find? isAllMail = some s.row :=
        find_eq_some hs hall fun s' hs' h => hk.oneAllMail s' hs' s hs h hall
      obtain ⟨s', hs', hid', -, folder, hsearched, hfid, hflabel⟩ :=
        ho.searched (some (written kept))
      obtain rfl : s' = s := MailboxRecord.eq_of_id hs' hs (hid'.trans hsid.symm)
      rw [hfind]
      dsimp only
      rw [hstore, hkept, hfindAll]
      refine ⟨(s'.row, folder), by simp [beside, hsearched], hfid, ⟨s', hs, by
        rw [hflabel]; exact hsearched⟩, fun h => ?_, fun label h => ?_⟩
      · rw [hflabel] at h
        cases h
      · rw [hflabel] at h
        exact ⟨⟨r, hr, hin, hstore, kept, hkept, (Option.some.inj h).symm⟩, s', hs,
          hsid.trans hfid.symm, hall⟩
  | none =>
    obtain ⟨r, hr, hid, hstore, folder, hs, hfid, -⟩ := ho.searched none
    have hrow : r.row ∈ snapshot.rows := mem_rows.2 ⟨r, hr, rfl⟩
    unfold gmailAccount
    simp only [hin]
    refine ⟨(r.row, folder), mem_beside (List.mem_filter.2 ⟨List.mem_filter.2 ⟨hrow, hstore⟩, ?_⟩)
      hs, hfid, AskedAs.ofWhole hr hs fun s _ hscope => ?_⟩
    · by_cases hrole : r.row.facts.role = some ALL_MAIL_ROLE
      · simp [hrole]
      · -- Outside All Mail the row is a member of its folder alone.
        cases hout : filter.otherThan with
        | none => simp
        | some leftOut =>
          obtain ⟨m, hm, hnot⟩ := hm.outside leftOut hout
          rcases hp.cases hm with rfl | ⟨-, s, hs', hsid, hall⟩
          · simp [hid, hnot]
          · obtain rfl := MailboxRecord.eq_of_id hs' hr (hsid.trans hid.symm)
            exact absurd (by simpa [isAllMail, hstore] using hall) hrole
    · rw [hin] at hscope
      cases hscope

/-- The folders of a filter beside their rows, before they are put in order. -/
def entries (filter : Filter) (snapshot : Snapshot t) : List (MailboxRow × Folder) :=
  if snapshot.gmail then gmailAccount filter snapshot.rows
  else folderAccount filter snapshot.rows

theorem covered (snapshot : Snapshot t) (hk : Kinds t) (hp : Placed t e)
    (ho : Opens t e.folderId) (hm : filter.Meets t e) :
    ∃ entry ∈ entries filter snapshot, entry.2.id = e.folderId ∧ AskedAs filter t entry.2 := by
  unfold entries
  split
  · exact gmailAccount_covers hk hp ho hm
  · rename_i hg
    exact folderAccount_covers (by simpa using hg) hp ho hm

/-! ## Every plan -/

/-- What both accounts' folders are: the rows beside them stand in the tree's order, each once, and
name them. -/
structure Listed (rows : List MailboxRow) (found : List (MailboxRow × Folder)) : Prop where
  once : (found.map Prod.fst).Sublist rows
  named : ∀ entry ∈ found, entry.2.id = entry.1.id

theorem beside_eq_some {label : Option String} {row : MailboxRow} {entry : MailboxRow × Folder}
    (h : beside label row = some entry) : entry.1 = row ∧ entry.2.id = entry.1.id := by
  obtain ⟨folder, hs, rfl⟩ := Option.map_eq_some_iff.1 h
  exact ⟨rfl, (searched_eq_some hs).1⟩

theorem Listed.besides (label : Option String) (rows : List MailboxRow) :
    Listed rows (rows.filterMap (beside label)) := by
  induction rows with
  | nil => exact ⟨List.Sublist.refl _, fun _ h => by cases h⟩
  | cons row rows ih =>
    rw [List.filterMap_cons]
    cases hb : beside label row with
    | none => exact ⟨ih.once.cons _, ih.named⟩
    | some entry =>
      obtain ⟨hrow, hid⟩ := beside_eq_some hb
      refine ⟨?_, List.forall_mem_cons.2 ⟨hid, ih.named⟩⟩
      rw [List.map_cons, hrow]
      exact ih.once.cons_cons _

theorem Listed.trans {rows rest : List MailboxRow} {found : List (MailboxRow × Folder)}
    (h : Listed rest found) (hs : rest.Sublist rows) : Listed rows found :=
  ⟨h.once.trans hs, h.named⟩

theorem Listed.one {label : Option String} {row : MailboxRow} {rows : List MailboxRow}
    (hrow : row ∈ rows) : Listed rows (beside label row).toList := by
  have h := (Listed.besides label [row]).trans (List.singleton_sublist.2 hrow)
  cases hb : beside label row with
  | none => exact ⟨List.nil_sublist _, fun _ h => by cases h⟩
  | some entry => simpa [hb] using h

theorem listed_entries (filter : Filter) (snapshot : Snapshot t) :
    Listed snapshot.rows (entries filter snapshot) := by
  unfold entries
  split
  · unfold gmailAccount
    split
    · split
      · exact ⟨List.nil_sublist _, fun _ h => by cases h⟩
      · rename_i row hfind
        split
        · exact Listed.one (List.mem_of_find?_eq_some hfind)
        · split
          · cases hall : snapshot.rows.find? isAllMail with
            | none => exact ⟨List.nil_sublist _, fun _ h => by cases h⟩
            | some store => exact Listed.one (List.mem_of_find?_eq_some hall)
          · exact ⟨List.nil_sublist _, fun _ h => by cases h⟩
    · exact (Listed.besides none _).trans (List.filter_sublist.trans List.filter_sublist)
  · exact (Listed.besides none _).trans List.filter_sublist

theorem lastRolesLast_perm (found : List (MailboxRow × Folder)) :
    (lastRolesLast found).Perm (found.map Prod.snd) :=
  (List.mergeSort_perm found _).map _

/-- **No folder stands in a plan twice.** -/
theorem nodup_folders (filter : Filter) (snapshot : Snapshot t) :
    ((plan filter snapshot).folders.map Folder.id).Nodup := by
  have hl := listed_entries filter snapshot
  have hids : ((entries filter snapshot).map Prod.snd).map Folder.id =
      ((entries filter snapshot).map Prod.fst).map MailboxRow.id := by
    rw [List.map_map, List.map_map]
    exact List.map_congr_left fun entry h => hl.named entry h
  have hperm : ((plan filter snapshot).folders.map Folder.id).Perm
      (((entries filter snapshot).map Prod.snd).map Folder.id) :=
    (lastRolesLast_perm (entries filter snapshot)).map _
  rw [hperm.nodup_iff, hids]
  exact (hl.once.map _).nodup (nodup_ids snapshot)

/-- A list in which nothing that holds of an element stops holding later falls into those it does
not hold of and those it does. -/
theorem split_of_pairwise {α : Type} {p : α → Bool} {l : List α}
    (h : l.Pairwise fun a b => (!p a || p b) = true) :
    ∃ first last, l = first ++ last ∧ (∀ a ∈ first, p a = false) ∧ ∀ a ∈ last, p a = true := by
  induction l with
  | nil =>
    exact ⟨[], [], rfl, fun _ h => absurd h List.not_mem_nil, fun _ h => absurd h List.not_mem_nil⟩
  | cons a l ih =>
    obtain ⟨ha, hl⟩ := List.pairwise_cons.1 h
    cases hp : p a with
    | true =>
      refine ⟨[], a :: l, rfl, fun _ h => absurd h List.not_mem_nil,
        List.forall_mem_cons.2 ⟨hp, fun b hb => ?_⟩⟩
      have := ha b hb
      rw [hp] at this
      exact this
    | false =>
      obtain ⟨first, last, rfl, hfirst, hlast⟩ := ih hl
      exact ⟨a :: first, last, rfl, List.forall_mem_cons.2 ⟨hp, hfirst⟩, hlast⟩

/-- **Junk and Trash run behind every other folder.** -/
theorem lasts_behind (filter : Filter) (snapshot : Snapshot t) :
    ∃ first last, (plan filter snapshot).folders = first ++ last ∧
      (∀ folder ∈ first, ¬ RunsLast t folder) ∧ ∀ folder ∈ last, RunsLast t folder := by
  have hl := listed_entries filter snapshot
  have hsorted :
      ((entries filter snapshot).mergeSort fun a b => !runsLast a.1 || runsLast b.1).Pairwise
        fun a b => (!runsLast a.1 || runsLast b.1) = true :=
    List.pairwise_mergeSort
      (fun a b c hab hbc => by
        cases ha : runsLast a.1 <;> cases hb : runsLast b.1 <;> simp_all)
      (fun a b => by cases runsLast a.1 <;> simp) _
  obtain ⟨first, last, hsplit, hfirst, hlast⟩ := split_of_pairwise
    (p := fun a : MailboxRow × Folder => runsLast a.1) hsorted
  have hmem : ∀ entry ∈ first ++ last, entry ∈ entries filter snapshot := fun entry h =>
    List.mem_mergeSort.1 (hsplit ▸ h)
  have hrow : ∀ entry ∈ first ++ last,
      ∃ r ∈ t.mailboxes, r.row = entry.1 ∧ entry.2.id = r.row.id := by
    intro entry h
    obtain ⟨r, hr, hrow⟩ := mem_rows.1 (hl.once.subset (List.mem_map_of_mem (hmem entry h)))
    exact ⟨r, hr, hrow, hrow ▸ hl.named entry (hmem entry h)⟩
  refine ⟨first.map Prod.snd, last.map Prod.snd, ?_, ?_, ?_⟩
  · rw [← List.map_append, ← hsplit]
    rfl
  · intro folder hf
    obtain ⟨entry, he, rfl⟩ := List.mem_map.1 hf
    obtain ⟨r, hr, hrr, hid⟩ := hrow entry (List.mem_append_left _ he)
    rintro ⟨s, hs, hsid, hruns⟩
    obtain rfl := MailboxRecord.eq_of_id hs hr (hsid.trans hid)
    rw [hrr, hfirst entry he] at hruns
    cases hruns
  · intro folder hf
    obtain ⟨entry, he, rfl⟩ := List.mem_map.1 hf
    obtain ⟨r, hr, hrr, hid⟩ := hrow entry (List.mem_append_right _ he)
    exact ⟨r, hr, hid.symm, by rw [hrr]; exact hlast entry he⟩

/-! ## The whole plan -/

/-- A Gmail account with All Mail and the label of what is starred. -/
def starredMailboxes : List MailboxRecord :=
  [⟨⟨"M1", none, ⟨"All Mail", "[Gmail]/All Mail", none, some "archive", 3, true, true, true, none,
      some 7, none, none, 1, 0⟩⟩, none, none⟩,
    ⟨⟨"M2", none, ⟨"Starred", "[Gmail]/Starred", none, some "flagged", 6, true, true, false,
      some "\\Flagged", none, none, none, 1, 0⟩⟩, none, none⟩]

/-- One message of All Mail that is starred. -/
def starredEmail : EmailRecord :=
  ⟨"E1", "M1", 4, "t1", ∅, 10, 150, none, false, none, some 1, []⟩

/-- The account of the one starred message. -/
def starredTables : Tables :=
  { Tables.empty with
    mailboxes := ⟨starredMailboxes, by decide⟩
    emails := ⟨[starredEmail], List.pairwise_singleton _ _⟩
    memberships := ⟨[⟨"E1", "M1", 150⟩, ⟨"E1", "M2", 150⟩], by decide⟩ }

/-- A search for what is starred, on the first day. -/
def starredFilter : Filter :=
  ⟨some "M2", none, none, none, "tea", "", some 100, some 200, none⟩

/-- The mailboxes as they stand. -/
def starredSnapshot : Snapshot starredTables := ⟨starredMailboxes.map MailboxRecord.row, .refl _⟩

end Huliho.SearchPlan
