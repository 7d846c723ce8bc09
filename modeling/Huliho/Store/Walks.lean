import Huliho.Store.Filing

/-!
# Every write walks

Each operation of the store is a `Walk` of `Filing`: one lemma for each, in the order the operations
call one another. What the callers owe stands in the hypotheses under `kept`; the rest is read off
the code.
-/

namespace Huliho

section

variable {kept : Prop} {t t' : Tables} {w w' : Writing} {row : EmailRecord}
  {wanted : List MailboxId} {id : EmailId} {folder : MailboxId}

/-! ## Memberships -/

/-- Replaced memberships of one email: none but the wanted ones, with the time given. -/
theorem mem_replaceMemberships {receivedAt : Int} {m : Membership}
    (h : m ∈ (replaceMemberships t id receivedAt wanted).memberships) :
    (m ∈ t.memberships ∧ m.emailId ≠ id) ∨
      (m.emailId = id ∧ m.mailboxId ∈ wanted ∧ m.receivedAt = receivedAt) :=
  (mem_foldl_offer h).imp_left Table.mem_delete.1

theorem Refiled.replaced (h : Upserted t row t') (hm : t'.memberships = t.memberships) :
    Refiled t row wanted (replaceMemberships t' row.id row.receivedAt wanted) := by
  refine ⟨⟨h.rows⟩, fun m hne => ⟨fun hmem => ?_, fun hmem => ?_⟩, fun m hmem hid => ?_,
    fun mailbox hw => memberOf_replace_self.2 hw⟩
  · rcases mem_replaceMemberships hmem with ⟨hmem, -⟩ | ⟨hid, -⟩
    · exact hm ▸ hmem
    · exact absurd hid hne
  · exact mem_foldl_offer_of_mem (Table.mem_delete.2 ⟨hm.symm ▸ hmem, hne⟩)
  · rcases mem_replaceMemberships hmem with ⟨-, hne⟩ | ⟨-, hw, hat⟩
    · exact absurd hid hne
    · exact ⟨hw, .inl hat⟩

/-- Memberships brought to what is wanted, where they said otherwise. -/
theorem Refiled.memberships {t₁ : Tables} {ledger : Ledger} (h : Upserted t row t₁)
    (hm : t₁.memberships = t.memberships)
    (hat : ∃ r ∈ t.emails, r.id = row.id ∧ r.receivedAt = row.receivedAt) :
    Refiled t row wanted (memberships ⟨t₁, ledger⟩ row.id row.receivedAt
      (currentMemberships t₁ row.id) wanted).tables := by
  unfold Huliho.memberships
  split
  · rename_i hsame
    refine ⟨h, fun m _ => by rw [hm], fun m hmem hid => ⟨hsame.1 _ ?_, .inr ⟨hm ▸ hmem, hat⟩⟩,
      fun mailbox hw => mem_currentMemberships.1 (hsame.2 mailbox hw)⟩
    exact mem_currentMemberships.2 ⟨m, hmem, hid, rfl⟩
  · exact .replaced h hm

/-- The row that was there, put where it was. -/
theorem Upserted.self (hr : row ∈ t.emails) : Upserted t row t := by
  refine ⟨fun s => ⟨fun hs => ?_, ?_⟩⟩
  · by_cases hid : s.id = row.id
    · exact .inr (EmailRecord.eq_of_id hs hr hid)
    · exact .inl ⟨hs, hid⟩
  · rintro (⟨hs, -⟩ | rfl)
    · exact hs
    · exact hr

theorem memberships_mailboxes (w : Writing) (id : EmailId) (receivedAt : Int)
    (current wanted : List MailboxId) :
    (memberships w id receivedAt current wanted).tables.mailboxes = w.tables.mailboxes := by
  unfold Huliho.memberships
  split <;> rfl

/-- A row put in place, then its memberships brought to what is wanted. -/
theorem Walk.refiled {t₁ : Tables} (ledger : Ledger) (h : Upserted t row t₁)
    (hm : t₁.memberships = t.memberships) (hb : t₁.mailboxes = t.mailboxes)
    (hat : ∃ r ∈ t.emails, r.id = row.id ∧ r.receivedAt = row.receivedAt) (hid : row.id = id)
    (hw : kept → Homes t row wanted) (hu : kept → Numbers t row.uid) :
    Walk kept t (memberships ⟨t₁, ledger⟩ id row.receivedAt
      (currentMemberships t₁ id) wanted).tables := by
  subst hid
  exact .rows (.filed row wanted (.memberships h hm hat) hw hu)
    ((memberships_mailboxes _ _ _ _ _).trans hb)

/-- **The memberships of a row brought to what is wanted.** -/
theorem Walk.memberships (hr : row ∈ w.tables.emails) (hid : row.id = id)
    (hw : kept → Homes w.tables row wanted) :
    Walk kept w.tables (memberships w id row.receivedAt
      (currentMemberships w.tables id) wanted).tables :=
  .refiled w.ledger (.self hr) rfl rfl ⟨row, hr, rfl, rfl⟩ hid hw fun _ => .inr ⟨row, hr, rfl⟩

/-- The label mailboxes a reading names stand. -/
def Labels.Stand (labels : Labels) (t : Tables) : Prop := ∀ e ∈ labels.byLabel, HasMailbox t e.2

theorem Labels.stand_read (t : Tables) (folder : MailboxId) : (Labels.read t folder).Stand t := by
  intro e he
  obtain ⟨b, hb, hlabel⟩ := List.mem_filterMap.1 he
  obtain ⟨label, -, rfl⟩ := Option.map_eq_some_iff.1 hlabel
  exact ⟨b, hb, rfl⟩

theorem Labels.Stand.walk {labels : Labels} (h : labels.Stand t) (hs : Huliho.Stand t t') :
    labels.Stand t' := fun e he => (hs.ids e.2).2 (h e he)

theorem Labels.Stand.get {labels : Labels} (h : labels.Stand t) {label : String}
    {mailbox : MailboxId} (hg : labels.get label = some mailbox) : HasMailbox t mailbox := by
  obtain ⟨e, he, rfl⟩ := Option.map_eq_some_iff.1 hg
  exact h e (List.mem_reverse.1 (List.mem_of_find?_eq_some he))

/-- The mailboxes of a row by its labels: its folder and the account's label mailboxes. -/
theorem Labels.Stand.homes {labels : Labels} (h : labels.Stand t) (hf : HasMailbox t folder)
    (hrow : row.folderId = folder) (found : List String) :
    Homes t row (labels.memberships folder found) := by
  have hmem : ∀ mailbox, mailbox ∈ labels.memberships folder found ↔
      mailbox = folder ∨ mailbox ∈ if labels.shown then found.filterMap labels.get else [] :=
    fun mailbox => by rw [Labels.memberships, List.mem_dedup, List.mem_cons]
  refine ⟨.inl ((hmem _).2 (.inl hrow)), fun mailbox hm => .inr ?_⟩
  rcases (hmem _).1 hm with rfl | hm
  · exact hf
  · split at hm
    · obtain ⟨label, -, hg⟩ := List.mem_filterMap.1 hm
      exact h.get hg
    · cases hm

/-- **A refresh of labels.** -/
theorem Walk.relabel {labels : Labels} (h : labels.Stand w.tables) {found : List String}
    (hr : row ∈ w.tables.emails) (hf : HasMailbox w.tables folder) (hrow : row.folderId = folder) :
    Walk kept w.tables
      (labels.relabel w ⟨row.id, folder, found, row.receivedAt⟩).tables := by
  unfold Labels.relabel
  simp only
  split
  · exact .refl
  · exact .rows (.filed row _ (.replaced (.self hr) rfl) (fun _ => h.homes hf hrow found)
      fun _ => .inr ⟨row, hr, rfl⟩) rfl

/-! ## Rows -/

/-- Columns of the rows beside their place, their UID among them. -/
theorem Walk.revised (f : EmailRecord → EmailRecord)
    (hrows : ∀ r, r ∈ t'.emails ↔ ∃ s ∈ t.emails, f s = r)
    (hplace : ∀ s, (f s).id = s.id ∧ (f s).folderId = s.folderId ∧ (f s).receivedAt = s.receivedAt ∧
      (f s).uid.natAbs = s.uid.natAbs)
    (hm : t'.memberships = t.memberships) (hb : t'.mailboxes = t.mailboxes) : Walk kept t t' :=
  .rows (.revised f hrows (fun s => ⟨(hplace s).1, (hplace s).2.1, (hplace s).2.2.1⟩)
    (fun _ s hs => .inr ⟨s, hs, (hplace s).2.2.2.symm⟩) hm) hb

theorem Walk.tagged (w : Writing) (id : EmailId) (keywords : Finset String) :
    Walk kept w.tables (tagged w id keywords).tables :=
  .revised (EmailRecord.tag id keywords) (fun _ => Table.mem_revise (EmailRecord.tag_apart _ _))
    (fun s => by unfold EmailRecord.tag; split <;> exact ⟨rfl, rfl, rfl, rfl⟩) rfl rfl

/-- Rows that leave with everything they were members of. -/
theorem Walk.departed (p : EmailRecord → Prop)
    (hrows : ∀ r, r ∈ t'.emails ↔ r ∈ t.emails ∧ ¬ p r)
    (hm : ∀ m, m ∈ t'.memberships ↔ m ∈ t.memberships ∧ ∀ r ∈ t.emails, p r → r.id ≠ m.emailId)
    (hb : t'.mailboxes = t.mailboxes) : Walk kept t t' := .rows (.departed p hrows hm) hb

theorem Walk.left (w : Writing) (thread : ThreadId) :
    Walk kept w.tables (left w thread).tables :=
  .of_tables (left_emails w thread) (left_memberships w thread) (left_frame w thread).1

/-- One row found at a place leaves. -/
theorem Walk.removed (p : EmailRecord → Prop) [DecidablePred p] {r : EmailRecord}
    (hr : r ∈ w.tables.emails) (hp : p r) (hone : ∀ s ∈ w.tables.emails, p s → s = r)
    (ledger : Ledger) :
    Walk kept w.tables (Huliho.left ⟨{ w.tables with
      emails := w.tables.emails.delete p
      memberships := w.tables.memberships.delete fun m => m.emailId = r.id }, ledger⟩
        r.threadId).tables := by
  have hgone : Walk kept w.tables { w.tables with
      emails := w.tables.emails.delete p
      memberships := w.tables.memberships.delete fun m => m.emailId = r.id } := by
    refine .departed p (fun _ => Table.mem_delete) (fun m => ?_) rfl
    rw [Table.mem_delete]
    refine and_congr_right fun _ =>
      ⟨fun hne s hs hps hid => hne ?_, fun h hid => h r hr hp hid.symm⟩
    rw [← hid, hone s hs hps]
  exact hgone.trans (.left ⟨_, ledger⟩ r.threadId)

/-- A join moves emails from thread to thread. -/
theorem Walk.join (w : Writing) (hashes : List Bytes) (generated : ThreadId) :
    Walk kept w.tables (join w hashes generated).1.tables := by
  unfold Huliho.join
  simp only
  generalize ((named w.tables hashes).insertionSort Larger).head?.getD (0, generated) = first
  generalize ((named w.tables hashes).insertionSort Larger).tail = losers
  have hmerged : Walk kept w.tables
      (losers.foldl (fun w loser => merge w loser.2 first.2) w).tables :=
    foldl_keeps (P := fun w' : Writing => Walk kept w.tables w'.tables) .refl fun loser _ w' h =>
      h.trans (.revised (EmailRecord.rethread loser.2 first.2)
        (fun _ => Table.mem_revise (EmailRecord.rethread_apart _ _))
        (fun s => by unfold EmailRecord.rethread; split <;> exact ⟨rfl, rfl, rfl, rfl⟩) rfl rfl)
  refine hmerged.trans ?_
  rw [points_frame]
  exact .of_tables rfl rfl rfl

/-- A new row with its one membership. -/
theorem Walk.insert {facts : EmailFacts} {hash : Option Bytes} {sealed : Bytes}
    {thread : ThreadId} (hi : insert t facts id folder hash sealed thread = .ok t')
    (hf : HasMailbox t folder) (hu : kept → facts.uid < UID_BOUND) : Walk kept t t' := by
  obtain ⟨hrows, hm, hfresh, hframe⟩ := insert_spec hi
  refine .rows (.inserted (newRow facts id folder hash sealed thread) hfresh hrows hm hf
    fun hk => .inl ?_) (by rw [hframe])
  exact hu hk

/-- The columns an arrival's upsert and the memberships after it set. -/
theorem Walk.place {a : Arrival} {sealer : Sealer} {kind : ChangeKind} {previous : Option ThreadId}
    (hp : a.place sealer w id kind previous = .ok w') (hl : a.labels.Stand w.tables)
    (hf : HasMailbox w.tables a.folder) (hu : kept → a.facts.uid < UID_BOUND) :
    Walk kept w.tables w'.tables := by
  have hboxes := (place_frame hp).1
  simp only [Arrival.place, Except.bind_eq_ok, pure, Except.pure, Except.ok.injEq] at hp
  obtain ⟨sealed, -, t, ht, rfl⟩ := hp
  obtain ⟨msgid, hups, hframe⟩ := upsertEmail_spec ht
  have hclaimed : (if kind = .created ∨ previous.isSome then claim w a.gmail.thread
      else w).tables = w.tables := by
    split <;> rfl
  rw [hclaimed] at hups hframe
  obtain ⟨hemails, hms⟩ := leaves_previous previous ⟨t, (if kind = .created ∨ previous.isSome then
    claim w a.gmail.thread else w).ledger⟩
  refine .rows (.filed { a.record id sealed with gmailMsgid := msgid } _
    (.replaced ⟨fun s => ?_⟩ ?_) (fun _ => hl.homes hf rfl a.gmail.labels)
    fun hk => .inl (hu hk)) hboxes
  · have hrow := hups.rows s
    rw [← hemails] at hrow
    exact hrow
  · refine hms.trans ?_
    rw [hframe]

/-! ## Folders that stand and folders that leave -/

theorem Walk.of_changes (h : t' = { t with changes := t'.changes }) : Walk kept t t' :=
  .of_tables (by rw [h]) (by rw [h]) (by rw [h])

theorem Stand.revised {f : MailboxRecord → MailboxRecord}
    (hf : ∀ a b, MailboxRecord.Apart a b → MailboxRecord.Apart (f a) (f b))
    (hb : t'.mailboxes = t.mailboxes.revise f hf) (hid : ∀ b, (f b).row.id = b.row.id)
    (hfacts : ∀ b, Unlabelled b.row.facts → Unlabelled (f b).row.facts) : Stand t t' := by
  refine ⟨fun id => ?_, fun hs b hmem => ?_⟩
  · rw [HasMailbox, HasMailbox, hb]
    constructor
    · rintro ⟨b, hmem, rfl⟩
      obtain ⟨c, hc, rfl⟩ := (Table.mem_revise hf).1 hmem
      exact ⟨c, hc, (hid c).symm⟩
    · rintro ⟨c, hc, rfl⟩
      exact ⟨f c, (Table.mem_revise hf).2 ⟨c, hc, rfl⟩, hid c⟩
  · rw [hb] at hmem
    obtain ⟨c, hc, rfl⟩ := (Table.mem_revise hf).1 hmem
    exact hfacts c (hs c hc)

theorem MailboxRecord.onId_facts {f : MailboxRecord → MailboxRecord} {P : MailboxFacts → Prop}
    (hf : ∀ b, P b.row.facts → P (f b).row.facts) (b : MailboxRecord) (hb : P b.row.facts) :
    P (b.onId folder f).row.facts := by
  unfold MailboxRecord.onId
  split
  · exact hf b hb
  · exact hb

theorem MailboxRecord.onId_id {f : MailboxRecord → MailboxRecord}
    (hf : ∀ b, (f b).row.id = b.row.id) (b : MailboxRecord) :
    (b.onId folder f).row.id = b.row.id := by
  unfold MailboxRecord.onId
  split
  · exact hf b
  · rfl

theorem Walk.pinned (t : Tables) (standing : Standing) : Walk kept t (pinned t standing).1 := by
  have hu : Stand t (Huliho.pinned t standing).1 := by
    unfold Huliho.pinned
    split
    · exact .of_mailboxes rfl
    · split
      · exact .revised (MailboxRecord.numbered_apart _ _) rfl (MailboxRecord.onId_id fun _ => rfl)
          (MailboxRecord.onId_facts fun _ h => h)
      · exact .of_mailboxes rfl
  refine .one (.of_tables (pinned_emails t standing) ?_) hu
  unfold Huliho.pinned
  split
  · rfl
  · split <;> rfl

/-- A folder that stands is a mailbox. -/
theorem hasMailbox_of_pinned {standing : Standing} (h : (pinned t standing).2 = true) :
    HasMailbox t standing.folder := by
  unfold Huliho.pinned at h
  split at h
  · cases h
  · rename_i r hr
    obtain ⟨hmem, hid⟩ := Table.mem_of_find? hr
    exact ⟨r, hmem, hid⟩

theorem Walk.leave (t : Tables) (folder : MailboxId) (s : Nat) (leaving : Leaving) :
    Walk kept t (leave t folder s leaving) :=
  have h := leave_spec t folder s leaving
  .departed (Leaves folder leaving) h.emails h.memberships (by rw [h.frame])

/-- **A folder vanishes**: its rows leave, then the members of the mailbox. -/
theorem Walk.vanish (t : Tables) (folder : MailboxId) (s : Nat) :
    Walk kept t (vanish t folder s) := by
  refine (Walk.leave t folder s .all).trans ?_
  have hframe : LogsUnder s (Huliho.leave t folder s .all) (logEach (Huliho.leave t folder s .all) s
      (fun _ => .updated) (fun _ kind => kind) (membersOf (Huliho.leave t folder s .all) folder)) :=
    logsUnder_logEach
  refine .rows (.dropped folder ?_ (fun m => ?_) fun r hr hfolder => ?_) ?_
  · simp only [Huliho.vanish, forgetProgress]
    rw [hframe.frame]
  · simp only [Huliho.vanish, forgetProgress]
    exact Table.mem_delete
  · have hstays := ((leave_spec t folder s .all).emails r).1 hr
    by_contra hlow
    exact hstays.2 ⟨hfolder, not_le.1 hlow⟩
  · simp only [Huliho.vanish, forgetProgress]
    rw [hframe.frame]

theorem Walk.renumber {s : Nat} (h : renumber t folder s = .ok t') : Walk kept t t' := by
  simp only [Huliho.renumber, Except.bind_eq_ok, constrained_eq_ok, pure, Except.pure,
    Except.ok.injEq] at h
  obtain ⟨emails, hu, rfl⟩ := h
  refine (Walk.leave t folder s (renumberLeaving t folder)).trans
    (.revised (EmailRecord.wait folder) (fun _ => Table.mem_update? hu) (fun s => ?_) rfl rfl)
  unfold EmailRecord.wait
  split
  · exact ⟨rfl, rfl, rfl, Int.natAbs_neg _⟩
  · exact ⟨rfl, rfl, rfl, rfl⟩

theorem Walk.logged {s : Nat} {x : Slot} {k : ChangeKind} (h : log t s x k = .ok t') :
    Walk kept t (prune t') :=
  (Walk.of_changes (log_frame h)).trans (.of_changes (prune_frame t'))

/-- The ledger of a write under a new sequence. -/
theorem Walk.ledgered {ledger : Ledger} {s : Nat} (h : ledger.write (nextSequence t).1 s = .ok t') :
    Walk kept t t' := by
  have hnext : Walk kept t (nextSequence t).1 := .of_tables rfl rfl rfl
  exact hnext.trans (.of_changes (Ledger.logsUnder_write h).frame)

theorem Walk.close {standing : Standing} {state : Nat} (h : close w standing = .ok (t, state)) :
    Walk kept w.tables t := by
  unfold Huliho.close at h
  split at h
  · obtain ⟨rfl, -⟩ := Prod.mk.inj (Except.ok.inj h)
    exact .refl
  · simp only [Except.bind_eq_ok, pure, Except.pure, Except.ok.injEq, Prod.mk.injEq] at h
    obtain ⟨t₁, hl, t₂, hlog, rfl, -⟩ := h
    exact (Walk.ledgered hl).trans (.logged hlog)

/-! ## A batch -/

theorem Walk.writeFacts {sealer : Sealer} {mint : Nat → Minted} {labels : Labels} {b b' : Batching}
    {message : EmailFacts × Nat} (h : writeFacts sealer mint folder labels b message = .ok b')
    (hl : labels.Stand b.writing.tables) (hf : HasMailbox b.writing.tables folder)
    (hu : kept → message.1.uid < UID_BOUND) :
    Walk kept b.writing.tables b'.writing.tables := by
  simp only [Huliho.writeFacts] at h
  split at h
  · obtain rfl := Except.ok.inj h
    exact .refl
  split at h
  · rename_i gmail _
    rw [Except.bind_eq_ok] at h
    obtain ⟨⟨w, wrote⟩, harr, h⟩ := h
    have hw : Walk kept b.writing.tables w.tables := by
      simp only [Arrival.write] at harr
      split at harr
      · split at harr
        · obtain ⟨rfl, -⟩ := Prod.mk.inj (Except.ok.inj harr)
          exact .refl
        · simp only [Except.bind_eq_ok, pure, Except.pure, Except.ok.injEq, Prod.mk.injEq] at harr
          obtain ⟨_, hplace, rfl, -⟩ := harr
          exact .place hplace hl hf hu
      · simp only [Except.bind_eq_ok, pure, Except.pure, Except.ok.injEq, Prod.mk.injEq] at harr
        obtain ⟨_, hplace, rfl, -⟩ := harr
        exact .place hplace hl hf hu
    obtain rfl := Except.ok.inj h
    cases wrote <;> exact hw
  · split at h
    · simp only [Except.bind_eq_ok, pure, Except.pure, Except.ok.injEq] at h
      obtain ⟨_, -, _, hi, rfl⟩ := h
      have hjoin : Walk kept b.writing.tables (Huliho.join b.writing
          (namedHashes sealer message.1.personal) (mint message.2).threadId).1.tables := .join _ _ _
      exact hjoin.trans (.insert hi ((hjoin.stands.ids folder).2 hf) hu)
    · simp only [rewrite, Except.bind_eq_ok, constrained_eq_ok, pure, Except.pure,
        Except.ok.injEq] at h
      obtain ⟨sealed, -, _, ⟨emails, hup, rfl⟩, rfl⟩ := h
      rename_i id _
      refine .rows (.revised (EmailRecord.matched message.1 id sealed)
        (fun _ => Table.mem_update? hup) (fun s => ?_) (fun hk s hs => ?_) rfl) rfl
      · unfold EmailRecord.matched
        split <;> exact ⟨rfl, rfl, rfl⟩
      · unfold EmailRecord.matched
        split
        · exact .inl (hu hk)
        · exact .inr ⟨s, hs, rfl⟩

theorem writeBatch_stands {sealer : Sealer} {mint : Nat → Minted} {batch : Batch}
    {state : Option Nat} (hw : writeBatch sealer mint t batch = .ok (t', state))
    (hs : state.isSome) : HasMailbox t batch.folder := by
  suffices hstands : (pinned t ⟨batch.folder, batch.uidValidity⟩).2 = true from
    hasMailbox_of_pinned hstands
  by_contra hc
  rw [Bool.not_eq_true] at hc
  unfold writeBatch at hw
  simp only [hc, Bool.not_false, if_true, pure, Except.pure, Except.ok.injEq, Prod.mk.injEq] at hw
  rw [← hw.2] at hs
  cases hs

/-- **A batch.** -/
theorem Walk.writeBatch {sealer : Sealer} {mint : Nat → Minted} {batch : Batch}
    {state : Option Nat} (hw : writeBatch sealer mint t batch = .ok (t', state))
    (hu : kept → ∀ facts ∈ batch.emails, facts.uid < UID_BOUND) : Walk kept t t' := by
  have hp : Walk kept t (Huliho.pinned t ⟨batch.folder, batch.uidValidity⟩).1 := .pinned _ _
  rcases writeBatch_stages hw with ⟨rfl, -⟩ | ⟨hsome, b, hloop, hrest⟩
  · exact hp
  have hf := (hp.stands.ids batch.folder).2 (writeBatch_stands hw hsome)
  have hb : Walk kept (Huliho.pinned t ⟨batch.folder, batch.uidValidity⟩).1 b.writing.tables := by
    refine foldlM_keeps (P := fun b : Batching => Walk kept
      (Huliho.pinned t ⟨batch.folder, batch.uidValidity⟩).1 b.writing.tables) .refl
      (fun message hm b b' h hw => h.trans ?_) hloop
    refine .writeFacts hw ((Labels.stand_read _ _).walk h.stands) ((h.stands.ids _).2 hf)
      fun hk => hu hk _ ?_
    exact (List.mem_zipIdx hm).2.2 ▸ List.getElem_mem _
  have hsaved : Walk kept b.writing.tables
      (save b.writing.tables batch.folder batch.advance).1 := by
    unfold save
    split <;> exact .of_tables rfl rfl rfl
  refine hp.trans (hb.trans (hsaved.trans ?_))
  rcases hrest with ⟨rfl, -⟩ | ⟨t₂, t₃, hledger, hlog, rfl⟩
  · exact .refl
  · refine (Walk.ledgered hledger).trans ?_
    split at hlog
    · exact (Walk.leave _ _ _ _).trans (.logged hlog)
    · exact .logged hlog

end

end Huliho
