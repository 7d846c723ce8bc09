import Huliho.Store.Tracking

/-!
# One row at a time

The operations that work on the row of one email: its keywords and its memberships change
(`Sound.touch`), or it leaves with its memberships (`Sound.remove`). Every client write is a run of
these, of rows moved where no client looks (`Sound.unseen`) and of drafts.
-/

namespace Huliho

variable {before : Tables} {w : Writing}

/-- Only the entries about emails and threads count. -/
theorem Sound.relist (h : Sound before w) {ledger : Ledger}
    (hl : ∀ x, ledger.items x = w.ledger.items x) : Sound before { w with ledger } :=
  h.step (fun x => .kept (hl x) rfl) h.hashes h.members rfl rfl

/-- **One email touched.** Its keywords or its memberships moved and it is noted as updated; every
thread holds what it held. -/
theorem Sound.touch (h : Sound before w) {id : EmailId} {w' : Writing}
    (hid : ∃ r ∈ w.tables.emails, r.id = id)
    (hrows : ∀ id' thread, InThread w'.tables id' thread ↔ InThread w.tables id' thread)
    (hother : ∀ id' thread keywords, id' ≠ id →
      (EmailAt w'.tables id' thread keywords ↔ EmailAt w.tables id' thread keywords))
    (hmem : ∀ id' mailbox, id' ≠ id →
      (MemberOf w'.tables id' mailbox ↔ MemberOf w.tables id' mailbox))
    (hframe : w'.tables.messageIds = w.tables.messageIds ∧
      w'.tables.changes = w.tables.changes ∧ w'.tables.sequence = w.tables.sequence)
    (hl : ∀ x, w'.ledger.items x =
      if x = .email id then fold (w.ledger.items (.email id)) .updated else w.ledger.items x) :
    Sound before w' := by
  have hexists : ∀ id', (∃ r ∈ w'.tables.emails, r.id = id') ↔ ∃ r ∈ w.tables.emails, r.id = id' :=
    fun id' => by
      have hin : ∀ t : Tables, (∃ r ∈ t.emails, r.id = id') ↔ ∃ thread, InThread t id' thread :=
        fun t => by simp [InThread]
      simp only [hin, hrows]
  have hholding : ∀ thread, Holding w'.tables thread ↔ Holding w.tables thread := fun thread => by
    have hin : ∀ t : Tables, Holding t thread ↔ ∃ id', InThread t id' thread :=
      fun t => by simp [InThread, Holding]
    simp only [hin, hrows]
  refine h.step (fun x => ?_) (fun r hr => ?_) (fun m hm => ?_) hframe.2.1 hframe.2.2
  · by_cases hx : x = .email id
    · subst hx
      refine .noted .updated ((hl _).trans (if_pos rfl)) ?_
      exact ⟨view_email_isSome.2 hid, view_email_isSome.2 ((hexists id).2 hid)⟩
    · refine .kept ((hl x).trans (if_neg hx)) ?_
      cases x with
      | email id' =>
        have hne : id' ≠ id := fun hc => hx (hc ▸ rfl)
        exact view_email_congr (fun thread keywords => hother id' thread keywords hne)
          fun mailbox => hmem id' mailbox hne
      | thread thread => exact view_thread_congr fun id' => hrows id' thread
  · rw [hframe.1] at hr
    exact (hholding _).2 (h.hashes r hr)
  · rw [hexists]
    by_cases hm' : m.emailId = id
    · rw [hm']; exact hid
    · obtain ⟨m', hm₁, hm₂, -⟩ := (hmem m.emailId m.mailboxId hm').1 ⟨m, hm, rfl, rfl⟩
      rw [← hm₂]
      exact h.members m' hm₁

/-- Noting a row that is there as updated is always right. -/
theorem Sound.note_updated (h : Sound before w) {id : EmailId}
    (hid : ∃ r ∈ w.tables.emails, r.id = id) :
    Sound before { w with ledger := w.ledger.note (.email, id) .updated } :=
  h.touch hid (fun _ _ => Iff.rfl) (fun _ _ _ _ => Iff.rfl) (fun _ _ _ => Iff.rfl) ⟨rfl, rfl, rfl⟩
    fun x => Ledger.items_note_email _ _ x _

/-! ## Keywords -/

/-- An `UPDATE` of one row that keeps its id and its thread, and every other row. -/
theorem rows_of_map (t t' : Tables) {f : EmailRecord → EmailRecord} (id : EmailId)
    (hmem : ∀ r, r ∈ t'.emails ↔ ∃ s ∈ t.emails, f s = r)
    (hf : ∀ r ∈ t.emails, (f r).id = r.id ∧ (f r).threadId = r.threadId)
    (hother : ∀ r ∈ t.emails, r.id ≠ id → (f r).keywords = r.keywords) :
    (∀ id' thread, InThread t' id' thread ↔ InThread t id' thread) ∧
      ∀ id' thread keywords, id' ≠ id →
        (EmailAt t' id' thread keywords ↔ EmailAt t id' thread keywords) := by
  constructor
  · intro id' thread
    simp only [InThread, hmem]
    constructor
    · rintro ⟨_, ⟨s, hs, rfl⟩, h⟩
      rw [(hf s hs).1, (hf s hs).2] at h
      exact ⟨s, hs, h⟩
    · rintro ⟨s, hs, h⟩
      refine ⟨f s, ⟨s, hs, rfl⟩, ?_⟩
      rw [(hf s hs).1, (hf s hs).2]
      exact h
  · intro id' thread keywords hne
    simp only [EmailAt, hmem]
    constructor
    · rintro ⟨_, ⟨s, hs, rfl⟩, h1, h2⟩
      rw [(hf s hs).1] at h1
      rw [(hf s hs).2, hother s hs (h1 ▸ hne)] at h2
      exact ⟨s, hs, h1, h2⟩
    · rintro ⟨s, hs, h1, h2⟩
      refine ⟨f s, ⟨s, hs, rfl⟩, ?_⟩
      rw [(hf s hs).1, (hf s hs).2, hother s hs (h1 ▸ hne)]
      exact ⟨h1, h2⟩

theorem Sound.tagged (h : Sound before w) {id : EmailId} (keywords : Finset String)
    (hid : ∃ r ∈ w.tables.emails, r.id = id) : Sound before (tagged w id keywords) := by
  have hmem : ∀ r, r ∈ (Huliho.tagged w id keywords).tables.emails ↔
      ∃ s ∈ w.tables.emails, s.tag id keywords = r := fun r =>
        Table.mem_revise (EmailRecord.tag_apart id keywords)
  obtain ⟨hin, hat⟩ := rows_of_map _ _ id hmem
    (fun r _ => by unfold EmailRecord.tag; split <;> exact ⟨rfl, rfl⟩)
    (fun r _ hne => by rw [EmailRecord.tag, if_neg hne])
  exact h.touch hid hin hat (fun _ _ _ => Iff.rfl) ⟨rfl, rfl, rfl⟩
    fun x => Ledger.items_note_email _ _ x _

/-! ## Memberships -/

/-- The rows of a run of inserts that meet nothing. -/
theorem mem_foldl_offer {id : EmailId} {receivedAt : Int} {m : Membership} :
    ∀ {wanted : List MailboxId} {ms : Table Membership.Apart},
      m ∈ wanted.foldl (fun ms mailbox => ms.offer ⟨id, mailbox, receivedAt⟩) ms →
        m ∈ ms ∨ (m.emailId = id ∧ m.mailboxId ∈ wanted ∧ m.receivedAt = receivedAt) := by
  intro wanted
  induction wanted with
  | nil => exact fun h => .inl h
  | cons mailbox wanted ih =>
    intro ms h
    rcases ih h with h | ⟨he, hm, hat⟩
    · rcases Table.mem_offer.1 h with h | ⟨rfl, -⟩
      · exact .inl h
      · exact .inr ⟨rfl, List.mem_cons_self, rfl⟩
    · exact .inr ⟨he, List.mem_cons_of_mem _ hm, hat⟩

theorem mem_foldl_offer_of_mem {id : EmailId} {receivedAt : Int} {m : Membership} :
    ∀ {wanted : List MailboxId} {ms : Table Membership.Apart}, m ∈ ms →
      m ∈ wanted.foldl (fun ms mailbox => ms.offer ⟨id, mailbox, receivedAt⟩) ms := by
  intro wanted
  induction wanted with
  | nil => exact fun h => h
  | cons mailbox wanted ih => exact fun h => ih (Table.mem_offer.2 (.inl h))

/-- Replaced memberships are those of one email. -/
theorem memberOf_replace {t : Tables} {id : EmailId} {receivedAt : Int} {wanted : List MailboxId}
    {id' : EmailId} {mailbox : MailboxId} (hne : id' ≠ id) :
    MemberOf (replaceMemberships t id receivedAt wanted) id' mailbox ↔ MemberOf t id' mailbox := by
  constructor
  · rintro ⟨m, hm, rfl, rfl⟩
    rcases mem_foldl_offer hm with hm | ⟨he, -⟩
    · exact ⟨m, (Table.mem_delete.1 hm).1, rfl, rfl⟩
    · exact absurd he hne
  · rintro ⟨m, hm, rfl, rfl⟩
    exact ⟨m, mem_foldl_offer_of_mem (Table.mem_delete.2 ⟨hm, hne⟩), rfl, rfl⟩

theorem Sound.replaceMemberships (h : Sound before w) {id : EmailId} (receivedAt : Int)
    (wanted : List MailboxId) (hid : ∃ r ∈ w.tables.emails, r.id = id) {ledger : Ledger}
    (hl : ∀ x, ledger.items x =
      if x = .email id then fold (w.ledger.items (.email id)) .updated else w.ledger.items x) :
    Sound before ⟨replaceMemberships w.tables id receivedAt wanted, ledger⟩ :=
  h.touch hid (fun _ _ => Iff.rfl) (fun _ _ _ _ => Iff.rfl) (fun _ _ hne => memberOf_replace hne)
    ⟨rfl, rfl, rfl⟩ hl

theorem Sound.memberships (h : Sound before w) {id : EmailId} (receivedAt : Int)
    (current wanted : List MailboxId) (hid : ∃ r ∈ w.tables.emails, r.id = id) :
    Sound before (memberships w id receivedAt current wanted) := by
  unfold Huliho.memberships
  split
  · exact h
  · refine h.replaceMemberships receivedAt wanted hid fun x => ?_
    simp only [Ledger.items_note_email, Ledger.items_noteAll]

theorem Sound.relabel (h : Sound before w) (labels : Labels) (row : Labeled)
    (hid : ∃ r ∈ w.tables.emails, r.id = row.id) : Sound before (labels.relabel w row) := by
  simp only [Labels.relabel]
  split
  · exact h
  · refine h.replaceMemberships row.receivedAt _ hid fun x => ?_
    simp only [Ledger.items_note_email, Ledger.items_noteMailboxes]

/-! ## Rows that leave -/

/-- The row of an email deleted with its memberships. -/
def withoutEmail (t : Tables) (r : EmailRecord) : Tables :=
  { t with
    emails := t.emails.delete fun s => s.id = r.id ∧ s.folderId = r.folderId ∧ s.uid = r.uid
    memberships := t.memberships.delete fun m => m.emailId = r.id }

theorem mem_withoutEmail {t : Tables} {r s : EmailRecord} (hr : r ∈ t.emails) :
    s ∈ (withoutEmail t r).emails ↔ s ∈ t.emails ∧ s.id ≠ r.id := by
  rw [withoutEmail, Table.mem_delete]
  refine and_congr_right fun hs => not_congr ⟨And.left, fun hid => ?_⟩
  rw [EmailRecord.eq_of_id hs hr hid]
  exact ⟨rfl, rfl, rfl⟩

/-- What `left` does, by whether the thread still holds an email. -/
theorem left_cases (w : Writing) (thread : ThreadId) :
    (Holding w.tables thread ∧
      left w thread = { w with ledger := w.ledger.note (.thread, thread) .updated }) ∨
    (¬ Holding w.tables thread ∧ left w thread =
      ⟨{ w.tables with messageIds := w.tables.messageIds.delete fun r => r.threadId = thread },
        w.ledger.note (.thread, thread) .destroyed⟩) := by
  unfold left
  split
  · rename_i hsize
    exact .inl ⟨size_pos.1 hsize, rfl⟩
  · rename_i hsize
    exact .inr ⟨fun hc => hsize (size_pos.2 hc), rfl⟩

/-- `left` deletes no email. -/
theorem left_emails (w : Writing) (thread : ThreadId) :
    (left w thread).tables.emails = w.tables.emails := by
  rcases left_cases w thread with ⟨-, heq⟩ | ⟨-, heq⟩ <;> rw [heq]

/-- An email left `thread` on the way from `w` to `w₁`, which has noted everything but the thread
itself: `left` notes that and drops the hashes of a thread that is gone. -/
theorem Sound.leftThread (h : Sound before w) {w₁ : Writing} {thread : ThreadId}
    (hwas : Holding w.tables thread) (hs : ∀ x, x ≠ .thread thread → Noted w w₁ x)
    (hl : w₁.ledger.items (.thread thread) = w.ledger.items (.thread thread))
    (hh : ∀ r ∈ w₁.tables.messageIds, r.threadId ≠ thread → Holding w₁.tables r.threadId)
    (hm : MembersLive w₁.tables) (hc : w₁.tables.changes = w.tables.changes)
    (hq : w₁.tables.sequence = w.tables.sequence) : Sound before (left w₁ thread) := by
  have hstep : ∀ (k : ChangeKind) (w' : Writing),
      k.Between (view w.tables (.thread thread)) (view w₁.tables (.thread thread)) →
      (∀ x, w'.ledger.items x =
        if x = .thread thread then fold (w₁.ledger.items (.thread thread)) k
        else w₁.ledger.items x) →
      (∀ x, view w'.tables x = view w₁.tables x) → ∀ x, Noted w w' x := by
    intro k w' hk hl' hv x
    by_cases hx : x = .thread thread
    · subst hx
      exact .noted k (by rw [hl', if_pos rfl, hl]) (by rw [hv]; exact hk)
    · have := hs x hx
      rw [Noted, hl', if_neg hx, hv]
      exact this
  rcases left_cases w₁ thread with ⟨hstill, heq⟩ | ⟨hgone, heq⟩
  · rw [heq]
    refine h.step (hstep .updated _ ⟨view_thread_isSome.2 hwas, view_thread_isSome.2 hstill⟩
      (fun x => Ledger.items_note_thread _ _ x _) fun _ => rfl) (fun r hr => ?_) hm hc hq
    by_cases hth : r.threadId = thread
    · rw [hth]; exact hstill
    · exact hh r hr hth
  · rw [heq]
    refine h.step (hstep .destroyed _ ⟨view_thread_isSome.2 hwas, view_thread_eq_none.2 hgone⟩
      (fun x => Ledger.items_note_thread _ _ x _) fun x => view_frame rfl rfl x)
      (fun r hr => ?_) hm hc hq
    obtain ⟨hr, hth⟩ := Table.mem_delete.1 hr
    exact hh r hr hth

/-- **One email leaves**, its thread updated while it holds another email and destroyed with its
hashes otherwise. -/
theorem Sound.remove (h : Sound before w) {r : EmailRecord} (hr : r ∈ w.tables.emails)
    (ledger : Ledger) (hl : ∀ x, ledger.items x =
      if x = .email r.id then fold (w.ledger.items (.email r.id)) .destroyed
      else w.ledger.items x) :
    Sound before (left ⟨withoutEmail w.tables r, ledger⟩ r.threadId) := by
  have hmem : ∀ s, s ∈ (withoutEmail w.tables r).emails ↔ s ∈ w.tables.emails ∧ s.id ≠ r.id :=
    fun s => mem_withoutEmail hr
  refine h.leftThread ⟨r, hr, rfl⟩ (fun x hx => ?_) ((hl _).trans (if_neg (by simp))) (fun x hx hne => ?_)
    (fun m hm => ?_) rfl rfl
  · by_cases hxe : x = .email r.id
    · subst hxe
      refine .noted .destroyed ((hl _).trans (if_pos rfl)) ⟨view_email_isSome.2 ⟨r, hr, rfl⟩, ?_⟩
      exact view_email_eq_none.2 fun s hs => ((hmem s).1 hs).2
    · refine .kept ((hl x).trans (if_neg hxe)) ?_
      cases x with
      | email id =>
        have hne : id ≠ r.id := fun hc => hxe (hc ▸ rfl)
        refine view_email_congr (fun thread keywords => ?_) fun mailbox => ?_
        · simp only [EmailAt, hmem]
          constructor
          · rintro ⟨s, ⟨hs, -⟩, h⟩
            exact ⟨s, hs, h⟩
          · rintro ⟨s, hs, h⟩
            exact ⟨s, ⟨hs, h.1 ▸ hne⟩, h⟩
        · simp only [MemberOf, withoutEmail, Table.mem_delete]
          constructor
          · rintro ⟨m, ⟨hm, -⟩, h⟩
            exact ⟨m, hm, h⟩
          · rintro ⟨m, hm, h⟩
            exact ⟨m, ⟨hm, h.1 ▸ hne⟩, h⟩
      | thread thread =>
        have hne : thread ≠ r.threadId := fun hc => hx (hc ▸ rfl)
        refine view_thread_congr fun id => ?_
        simp only [InThread, hmem]
        constructor
        · rintro ⟨s, ⟨hs, -⟩, h⟩
          exact ⟨s, hs, h⟩
        · rintro ⟨s, hs, h⟩
          refine ⟨s, ⟨hs, fun hc => hne ?_⟩, h⟩
          rw [← h.2, EmailRecord.eq_of_id hs hr hc]
  · obtain ⟨s, hs, hth⟩ := h.hashes x hx
    refine ⟨s, (hmem s).2 ⟨hs, fun hc => hne ?_⟩, hth⟩
    rw [← hth, EmailRecord.eq_of_id hs hr hc]
  · obtain ⟨hm, hne⟩ := Table.mem_delete.1 hm
    obtain ⟨s, hs, hid⟩ := h.members m hm
    exact ⟨s, (hmem s).2 ⟨hs, hid ▸ hne⟩, hid⟩

end Huliho
