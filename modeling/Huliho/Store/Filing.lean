import Huliho.Store.Moved
import Mathlib.Logic.Relation

/-!
# Where the emails lie

Where an email lies is kept in two places: its row names a folder, and its memberships name the
mailboxes it is in, each with a copy of the time it was received at. `Filing` is everything a
statement of the store ever does to that — five kinds of step — and a `Walk` is a run of them with
the mailboxes left standing. Whatever a write does to the rows is a walk, so an invariant of where
the emails lie is proved over five steps, once.

`kept` is whether the callers keep what they promise (`Write.Asked` says what that is): without it a
label change may take an email out of the folder its row names. What holds of every walk is
**`Walk.timed`**, what holds where the promises are kept **`Walk.filed`**.
-/

namespace Huliho

/-! ## The invariant -/

/-- A mailbox of the account. -/
def HasMailbox (t : Tables) (id : MailboxId) : Prop := ∃ b ∈ t.mailboxes, b.row.id = id

/-- A store of a Gmail account is no label. -/
def Unlabelled (facts : MailboxFacts) : Prop := facts.store = true → facts.gmailLabel = none

/-- No mailbox is a store and a label. -/
def Stores (t : Tables) : Prop := ∀ b ∈ t.mailboxes, Unlabelled b.row.facts

/-- Every membership names an email and carries the time it was received at. -/
def Timed (t : Tables) : Prop :=
  ∀ m ∈ t.memberships, ∃ r ∈ t.emails, r.id = m.emailId ∧ r.receivedAt = m.receivedAt

/-- UIDs are `u32`s, negated while a row waits. -/
def UID_BOUND : Nat := 4294967296

/-- Every email lies where its memberships say, but for the mailboxes `gone` whose rows the write
took out and whose members it has not taken out yet. -/
structure Filed (gone : List MailboxId) (t : Tables) : Prop where
  timed : Timed t
  homed : ∀ r ∈ t.emails, MemberOf t r.id r.folderId
  housed : ∀ m ∈ t.memberships, m.mailboxId ∈ gone ∨ HasMailbox t m.mailboxId
  numbered : ∀ r ∈ t.emails, r.uid.natAbs < UID_BOUND
  stores : Stores t

theorem Filed.empty : Filed [] Tables.empty :=
  ⟨fun _ h => absurd h Table.not_mem_empty, fun _ h => absurd h Table.not_mem_empty,
    fun _ h => absurd h Table.not_mem_empty, fun _ h => absurd h Table.not_mem_empty,
    fun _ h => absurd h Table.not_mem_empty⟩

/-! ## The steps -/

/-- One email with its row replaced or added and its memberships brought to `wanted`. -/
structure Refiled (t : Tables) (row : EmailRecord) (wanted : List MailboxId) (t' : Tables) :
    Prop where
  rows : Upserted t row t'
  others : ∀ m : Membership, m.emailId ≠ row.id → (m ∈ t'.memberships ↔ m ∈ t.memberships)
  /-- Memberships that said so already stand as they were. -/
  own : ∀ m ∈ t'.memberships, m.emailId = row.id → m.mailboxId ∈ wanted ∧
    (m.receivedAt = row.receivedAt ∨
      (m ∈ t.memberships ∧ ∃ r ∈ t.emails, r.id = row.id ∧ r.receivedAt = row.receivedAt))
  covers : ∀ mailbox ∈ wanted, MemberOf t' row.id mailbox

/-- Mailboxes an email may be brought to: each is the account's or one the email is in, and the
folder its row names is among them, or is where the email was and stays. -/
structure Homes (t : Tables) (row : EmailRecord) (wanted : List MailboxId) : Prop where
  folder : row.folderId ∈ wanted ∨
    (row ∈ t.emails ∧ (MemberOf t row.id row.folderId → row.folderId ∈ wanted))
  mailboxes : ∀ mailbox ∈ wanted, MemberOf t row.id mailbox ∨ HasMailbox t mailbox

/-- The mailboxes stand: the same ids, and no store became a label. -/
structure Stand (t t' : Tables) : Prop where
  ids : ∀ id, HasMailbox t' id ↔ HasMailbox t id
  stores : Stores t → Stores t'

/-- A UID that is in bounds or stands on a row. -/
def Numbers (t : Tables) (uid : Int) : Prop :=
  uid.natAbs < UID_BOUND ∨ ∃ r ∈ t.emails, r.uid.natAbs = uid.natAbs

/-- One change of the emails and their memberships. -/
inductive Filing (kept : Prop) (t t' : Tables) : Prop
  /-- Columns beside the folder and the time received. -/
  | revised (f : EmailRecord → EmailRecord) (rows : ∀ r, r ∈ t'.emails ↔ ∃ s ∈ t.emails, f s = r)
      (place : ∀ s, (f s).id = s.id ∧ (f s).folderId = s.folderId ∧ (f s).receivedAt = s.receivedAt)
      (uids : kept → ∀ s ∈ t.emails, Numbers t (f s).uid) (members : t'.memberships = t.memberships)
  | inserted (row : EmailRecord) (fresh : ∀ r ∈ t.emails, r.id ≠ row.id)
      (rows : ∀ s, s ∈ t'.emails ↔ s ∈ t.emails ∨ s = row)
      (members : ∀ m, m ∈ t'.memberships ↔
        m ∈ t.memberships ∨ m = ⟨row.id, row.folderId, row.receivedAt⟩)
      (home : HasMailbox t row.folderId) (uid : kept → Numbers t row.uid)
  | filed (row : EmailRecord) (wanted : List MailboxId) (files : Refiled t row wanted t')
      (homes : kept → Homes t row wanted) (uid : kept → Numbers t row.uid)
  | departed (p : EmailRecord → Prop) (rows : ∀ r, r ∈ t'.emails ↔ r ∈ t.emails ∧ ¬ p r)
      (members : ∀ m, m ∈ t'.memberships ↔
        m ∈ t.memberships ∧ ∀ r ∈ t.emails, p r → r.id ≠ m.emailId)
  /-- A mailbox's members taken out of it, once the rows of the folder left. -/
  | dropped (mailbox : MailboxId) (rows : t'.emails = t.emails)
      (members : ∀ m, m ∈ t'.memberships ↔ m ∈ t.memberships ∧ m.mailboxId ≠ mailbox)
      (rest : ∀ r ∈ t.emails, r.folderId = mailbox → Leaving.all.below ≤ r.uid)

section

variable {kept : Prop} {gone : List MailboxId} {t t' t'' : Tables} {row : EmailRecord}
  {wanted : List MailboxId}

/-- Nothing moved. -/
theorem Filing.of_tables (he : t'.emails = t.emails) (hm : t'.memberships = t.memberships) :
    Filing kept t t' :=
  .revised id (fun r => by simp [he]) (fun _ => ⟨rfl, rfl, rfl⟩)
    (fun _ s hs => .inr ⟨s, hs, rfl⟩) hm

theorem Stand.of_mailboxes (hb : t'.mailboxes = t.mailboxes) : Stand t t' :=
  ⟨fun _ => by rw [HasMailbox, HasMailbox, hb], fun h => by rwa [Stores, hb]⟩

theorem Stand.trans (h : Stand t t') (h' : Stand t' t'') : Stand t t'' :=
  ⟨fun id => (h'.ids id).trans (h.ids id), fun hs => h'.stores (h.stores hs)⟩

/-! ## What a step keeps -/

theorem Refiled.timed (h : Refiled t row wanted t') (ht : Timed t) : Timed t' := by
  intro m hm
  by_cases hid : m.emailId = row.id
  · refine ⟨row, (h.rows.rows row).2 (.inr rfl), hid.symm, ?_⟩
    rcases (h.own m hm hid).2 with hat | ⟨hold, r, hr, hrid, hat⟩
    · exact hat.symm
    · obtain ⟨s, hs, hsid, hsat⟩ := ht m hold
      rw [EmailRecord.eq_of_id hs hr (hsid.trans (hid.trans hrid.symm))] at hsat
      exact hat.symm.trans hsat
  · obtain ⟨r, hr, hrid, hat⟩ := ht m ((h.others m hid).1 hm)
    exact ⟨r, (h.rows.rows r).2 (.inl ⟨hr, hrid ▸ hid⟩), hrid, hat⟩

/-- **A step keeps the times** the memberships carry. -/
theorem Filing.timed (h : Filing kept t t') (ht : Timed t) : Timed t' := by
  intro m hm
  cases h with
  | revised f rows place uids members =>
    rw [members] at hm
    obtain ⟨r, hr, hid, hat⟩ := ht m hm
    exact ⟨f r, (rows _).2 ⟨r, hr, rfl⟩, (place r).1.trans hid, (place r).2.2.trans hat⟩
  | inserted row fresh rows members home uid =>
    rcases (members m).1 hm with hm | rfl
    · obtain ⟨r, hr, hrest⟩ := ht m hm
      exact ⟨r, (rows r).2 (.inl hr), hrest⟩
    · exact ⟨row, (rows row).2 (.inr rfl), rfl, rfl⟩
  | filed row wanted files homes uid => exact files.timed ht m hm
  | departed p rows members =>
    obtain ⟨hm, hstays⟩ := (members m).1 hm
    obtain ⟨r, hr, hid, hat⟩ := ht m hm
    exact ⟨r, (rows r).2 ⟨hr, fun hp => hstays r hr hp hid⟩, hid, hat⟩
  | dropped mailbox rows members rest =>
    obtain ⟨r, hr, hrest⟩ := ht m ((members m).1 hm).1
    exact ⟨r, rows ▸ hr, hrest⟩

theorem Numbers.bounded {uid : Int} (h : Numbers t uid)
    (ht : ∀ r ∈ t.emails, r.uid.natAbs < UID_BOUND) : uid.natAbs < UID_BOUND := by
  rcases h with h | ⟨r, hr, heq⟩
  · exact h
  · exact heq ▸ ht r hr

theorem Refiled.homed (h : Refiled t row wanted t') (hw : Homes t row wanted)
    (ht : ∀ r ∈ t.emails, MemberOf t r.id r.folderId) {r : EmailRecord} (hr : r ∈ t'.emails) :
    MemberOf t' r.id r.folderId := by
  rcases (h.rows.rows r).1 hr with ⟨hr, hne⟩ | rfl
  · obtain ⟨m, hm, hid, hmailbox⟩ := ht r hr
    exact ⟨m, (h.others m (hid ▸ hne)).2 hm, hid, hmailbox⟩
  · rcases hw.folder with hin | ⟨hrow, hin⟩
    · exact h.covers _ hin
    · exact h.covers _ (hin (ht r hrow))

theorem Refiled.housed (h : Refiled t row wanted t') (hw : Homes t row wanted)
    (ht : ∀ m ∈ t.memberships, m.mailboxId ∈ gone ∨ HasMailbox t m.mailboxId) {m : Membership}
    (hm : m ∈ t'.memberships) : m.mailboxId ∈ gone ∨ HasMailbox t m.mailboxId := by
  by_cases hid : m.emailId = row.id
  · rcases hw.mailboxes _ (h.own m hm hid).1 with ⟨m', hm', -, hmailbox⟩ | hhas
    · exact hmailbox ▸ ht m' hm'
    · exact .inr hhas
  · exact ht m ((h.others m hid).1 hm)

/-- **A step keeps the emails filed** where the callers keep their word. -/
theorem Filing.filed_of (hk : kept) (h : Filing kept t t')
    (hs : Stand t t') (ht : Filed gone t) : Filed gone t' := by
  refine ⟨h.timed ht.timed, fun r hr => ?_, fun m hm => ?_, fun r hr => ?_, hs.stores ht.stores⟩
  · cases h with
    | revised f rows place uids members =>
      obtain ⟨s, hs, rfl⟩ := (rows r).1 hr
      obtain ⟨hid, hfolder, -⟩ := place s
      rw [hid, hfolder, MemberOf, members]
      exact ht.homed s hs
    | inserted row fresh rows members home uid =>
      rcases (rows r).1 hr with hr | rfl
      · obtain ⟨m, hm, hrest⟩ := ht.homed r hr
        exact ⟨m, (members m).2 (.inl hm), hrest⟩
      · exact ⟨_, (members _).2 (.inr rfl), rfl, rfl⟩
    | filed row wanted files homes uid => exact files.homed (homes hk) ht.homed hr
    | departed p rows members =>
      obtain ⟨hr, hp⟩ := (rows r).1 hr
      obtain ⟨m, hm, hid, hmailbox⟩ := ht.homed r hr
      refine ⟨m, (members m).2 ⟨hm, fun s hs hps hc => hp ?_⟩, hid, hmailbox⟩
      rwa [EmailRecord.eq_of_id hr hs (hid.symm.trans hc.symm)]
    | dropped mailbox rows members rest =>
      rw [rows] at hr
      obtain ⟨m, hm, hid, hmailbox⟩ := ht.homed r hr
      refine ⟨m, (members m).2 ⟨hm, fun hc => ?_⟩, hid, hmailbox⟩
      have hrest := rest r hr (hmailbox.symm.trans hc)
      have hbound := ht.numbered r hr
      simp only [UID_BOUND, Leaving.below] at hbound hrest
      omega
  · rw [hs.ids]
    cases h with
    | revised f rows place uids members => exact ht.housed m (members ▸ hm)
    | inserted row fresh rows members home uid =>
      rcases (members m).1 hm with hm | rfl
      · exact ht.housed m hm
      · exact .inr home
    | filed row wanted files homes uid => exact files.housed (homes hk) ht.housed hm
    | departed p rows members => exact ht.housed m ((members m).1 hm).1
    | dropped mailbox rows members rest => exact ht.housed m ((members m).1 hm).1
  · cases h with
    | revised f rows place uids members =>
      obtain ⟨s, hs, rfl⟩ := (rows r).1 hr
      exact (uids hk s hs).bounded ht.numbered
    | inserted row fresh rows members home uid =>
      rcases (rows r).1 hr with hr | rfl
      · exact ht.numbered r hr
      · exact (uid hk).bounded ht.numbered
    | filed row wanted files homes uid =>
      rcases (files.rows.rows r).1 hr with ⟨hr, -⟩ | rfl
      · exact ht.numbered r hr
      · exact (uid hk).bounded ht.numbered
    | departed p rows members => exact ht.numbered r ((rows r).1 hr).1
    | dropped mailbox rows members rest => exact ht.numbered r (rows ▸ hr)

/-! ## Walks -/

/-- A run of steps over which every mailbox stands. -/
inductive Walk (kept : Prop) (t : Tables) : Tables → Prop
  | refl : Walk kept t t
  | step {t' t'' : Tables} (walk : Walk kept t t') (step : Filing kept t' t'')
      (stands : Stand t' t'') : Walk kept t t''

namespace Walk

theorem one (h : Filing kept t t') (hs : Stand t t') : Walk kept t t' := .step .refl h hs

theorem trans (h : Walk kept t t') (h' : Walk kept t' t'') : Walk kept t t'' := by
  induction h' with
  | refl => exact h
  | step _ step stands ih => exact .step ih step stands

/-- A step that leaves the mailboxes alone. -/
theorem rows (h : Filing kept t t') (hb : t'.mailboxes = t.mailboxes) : Walk kept t t' :=
  .one h (.of_mailboxes hb)

/-- Nothing moved. -/
theorem of_tables (he : t'.emails = t.emails) (hm : t'.memberships = t.memberships)
    (hb : t'.mailboxes = t.mailboxes) : Walk kept t t' := .rows (.of_tables he hm) hb

theorem stands (h : Walk kept t t') : Stand t t' := by
  induction h with
  | refl => exact .of_mailboxes rfl
  | step _ _ stands ih => exact ih.trans stands

/-- **Every walk keeps the times.** -/
theorem timed (h : Walk kept t t') (ht : Timed t) : Timed t' := by
  induction h with
  | refl => exact ht
  | step _ step _ ih => exact step.timed ih

/-- **Where the promises are kept a walk keeps the emails filed.** -/
theorem filed (hk : kept) (h : Walk kept t t') (ht : Filed gone t) : Filed gone t' := by
  induction h with
  | refl => exact ht
  | step _ step stands ih => exact step.filed_of hk stands ih

end Walk

end

end Huliho
