import Huliho.Store.Parked

/-!
# A message that moves between folders

A refresh of the folder a Gmail message left parks its row, a refresh of the folder it moved to writes
it as an arrival. **`moves_alike`** says that the order does not matter: the tables come out the same,
whether the row waited when the message arrived or the folder it left learned of the expunge after the
arrival had moved the row away. What came out is the row the message had, in its new folder
(`Moved`), and the sweep at the end of the pass does not take it.

The tables agree as a batch does the same on parked rows (`writeBatch_parked`) and a park is one
statement on all rows (**`parkUids_eq_ok`**). What the batch does to the one row is followed through its
loop: messages before and after the arrival leave it alone (`Spares`).
-/

namespace Huliho

variable {t t' t₁ t₂ : Tables} {folder other : MailboxId} {uids : List Nat}

/-! ## What a message leaves alone -/

/-- A write leaves the row of one email where it lies, but for its thread, and its memberships. -/
structure Spares (id : EmailId) (t t' : Tables) : Prop where
  row : ∀ r ∈ t.emails, r.id = id → ∃ thread, { r with threadId := thread } ∈ t'.emails
  members : ∀ m, MemberOf t' id m ↔ MemberOf t id m

section

variable {id : EmailId} {w w₂ : Writing}

theorem Spares.of_tables {t t' : Tables} (he : t'.emails = t.emails)
    (hm : t'.memberships = t.memberships) : Spares id t t' :=
  ⟨fun r hr _ => ⟨r.threadId, he ▸ hr⟩, fun m => by rw [MemberOf, MemberOf, hm]⟩

theorem Spares.trans {t'' : Tables} (h : Spares id t t') (h' : Spares id t' t'') :
    Spares id t t'' := by
  refine ⟨fun r hr hid => ?_, fun m => (h'.members m).trans (h.members m)⟩
  obtain ⟨thread, hthread⟩ := h.row r hr hid
  obtain ⟨thread', hthread'⟩ := h'.row _ hthread hid
  exact ⟨thread', hthread'⟩

theorem left_memberships (w : Writing) (thread : ThreadId) :
    (left w thread).tables.memberships = w.tables.memberships := by
  unfold left
  split <;> rfl

/-- The thread a row lay in is left without a word about the rows. -/
theorem leaves_previous (previous : Option ThreadId) (w : Writing) :
    (match previous with
      | some previous => left w previous
      | none => w).tables.emails = w.tables.emails ∧
    (match previous with
      | some previous => left w previous
      | none => w).tables.memberships = w.tables.memberships := by
  cases previous with
  | none => exact ⟨rfl, rfl⟩
  | some previous => exact ⟨left_emails _ _, left_memberships _ _⟩

/-- A run of inserts that meet nothing leaves the mailboxes there were and those it names. -/
theorem exists_foldl_offer {receivedAt : Int} {mailbox : MailboxId} :
    ∀ {wanted : List MailboxId} {ms : Table Membership.Apart},
      (∃ m ∈ wanted.foldl (fun ms mailbox => ms.offer ⟨id, mailbox, receivedAt⟩) ms,
          m.emailId = id ∧ m.mailboxId = mailbox) ↔
        (∃ m ∈ ms, m.emailId = id ∧ m.mailboxId = mailbox) ∨ mailbox ∈ wanted := by
  intro wanted
  induction wanted with
  | nil => simp
  | cons first wanted ih =>
    intro ms
    have hone : (∃ m ∈ ms.offer ⟨id, first, receivedAt⟩, m.emailId = id ∧ m.mailboxId = mailbox) ↔
        (∃ m ∈ ms, m.emailId = id ∧ m.mailboxId = mailbox) ∨ mailbox = first := by
      constructor
      · rintro ⟨m, hm, hid, rfl⟩
        rcases Table.mem_offer.1 hm with hm | ⟨rfl, -⟩
        · exact .inl ⟨m, hm, hid, rfl⟩
        · exact .inr rfl
      · rintro (⟨m, hm, hid, rfl⟩ | rfl)
        · exact ⟨m, Table.mem_offer.2 (.inl hm), hid, rfl⟩
        · -- One that met another membership met this very one.
          by_cases hfree : ∀ m ∈ ms, m.Apart ⟨id, mailbox, receivedAt⟩
          · exact ⟨_, Table.mem_offer.2 (.inr ⟨rfl, hfree⟩), rfl, rfl⟩
          · push Not at hfree
            obtain ⟨m, hm, hmeets⟩ := hfree
            have hsame : m.emailId = id ∧ m.mailboxId = mailbox := by
              simpa [Membership.Apart] using hmeets
            exact ⟨m, Table.mem_offer.2 (.inl hm), hsame⟩
    rw [List.foldl_cons, ih, hone, List.mem_cons, or_assoc]

/-- Replaced memberships are the wanted ones. -/
theorem memberOf_replace_self {receivedAt : Int} {wanted : List MailboxId} {mailbox : MailboxId} :
    MemberOf (replaceMemberships t id receivedAt wanted) id mailbox ↔ mailbox ∈ wanted := by
  refine exists_foldl_offer.trans (or_iff_right ?_)
  rintro ⟨m, hm, hid, -⟩
  exact (Table.mem_delete.1 hm).2 hid

/-- The row of the id takes the new columns and keeps its message id. -/
theorem upsertEmail_takes {record : EmailRecord} (hu : upsertEmail t record = .ok t')
    {r : EmailRecord} (hr : r ∈ t.emails) (hid : r.id = record.id) :
    { record with gmailMsgid := r.gmailMsgid } ∈ t'.emails := by
  simp only [upsertEmail, Except.bind_eq_ok, constrained_eq_ok, pure, Except.pure,
    Except.ok.injEq] at hu
  obtain ⟨rows, hrows, rfl⟩ := hu
  have hfound : (t.emails.find? fun r => r.id = record.id).isSome := by
    rw [Option.isSome_iff_ne_none]
    exact fun hnone => Table.find?_eq_none.1 hnone r hr hid
  rw [if_pos hfound] at hrows
  exact (Table.mem_update? hrows).2 ⟨r, hr, if_pos hid⟩

/-- **The row an arrival writes** and what it leaves alone. -/
theorem place_spec {a : Arrival} {sealer : Sealer} {placed : EmailId} {kind : ChangeKind}
    {previous : Option ThreadId} (hp : a.place sealer w placed kind previous = .ok w₂) :
    (∀ r ∈ w.tables.emails, r.id = placed → ∃ sealed,
        { a.record placed sealed with gmailMsgid := r.gmailMsgid } ∈ w₂.tables.emails) ∧
      (∀ m, MemberOf w₂.tables placed m ↔ m ∈ a.labels.memberships a.folder a.gmail.labels) ∧
      ∀ id, id ≠ placed → Spares id w.tables w₂.tables := by
  simp only [Arrival.place, Except.bind_eq_ok, pure, Except.pure, Except.ok.injEq] at hp
  obtain ⟨sealed, -, t, ht, rfl⟩ := hp
  have hclaimed : (if kind = .created ∨ previous.isSome then claim w a.gmail.thread
      else w).tables.emails = w.tables.emails ∧
      (if kind = .created ∨ previous.isSome then claim w a.gmail.thread
      else w).tables.memberships = w.tables.memberships := by
    split <;> exact ⟨rfl, rfl⟩
  obtain ⟨msgid, hups, hframe⟩ := upsertEmail_spec ht
  have hmembers : t.memberships = w.tables.memberships := by
    rw [hframe]
    exact hclaimed.2
  obtain ⟨hemails, hms⟩ := leaves_previous previous ⟨t, (if kind = .created ∨ previous.isSome then
    claim w a.gmail.thread else w).ledger⟩
  refine ⟨fun r hr hid => ⟨sealed, ?_⟩, fun m => memberOf_replace_self, fun id hne => ⟨?_, ?_⟩⟩
  · have htaken := upsertEmail_takes ht (hclaimed.1 ▸ hr) hid
    rw [← hemails] at htaken
    exact htaken
  · intro r hr hid
    refine ⟨r.threadId, ?_⟩
    have hkept : r ∈ t.emails := (hups.rows r).2 (.inl ⟨hclaimed.1 ▸ hr, hid.trans_ne hne⟩)
    rw [← hemails] at hkept
    exact hkept
  · intro m
    exact (memberOf_replace hne).trans (iff_of_eq (congrArg (fun ms : Table Membership.Apart =>
      ∃ x ∈ ms, x.emailId = id ∧ x.mailboxId = m) (hms.trans hmembers)))

/-- **One message of a batch leaves an email alone** that it neither carries nor matches nor mints, or
that it chases. -/
theorem writeFacts_spares {b b₂ : Batching} {sealer : Sealer} {mint : Nat → Minted}
    {labels : Labels} {message : EmailFacts × Nat} (hwaits : ∀ v ∈ b.waiting, v.2 ≠ id)
    (hmint : (mint message.2).emailId ≠ id)
    (hheld : ∀ gmail, message.1.gmail = some gmail → ∀ r ∈ b.writing.tables.emails, r.id = id →
      r.gmailMsgid = some gmail.storedMsgid → r.folderId = other ∧ 0 < r.uid)
    (hw : writeFacts sealer mint other labels b message = .ok b₂) :
    Spares id b.writing.tables b₂.writing.tables := by
  obtain ⟨facts, n⟩ := message
  simp only [writeFacts] at hw
  split at hw
  · obtain rfl := Except.ok.inj hw
    exact .of_tables rfl rfl
  rename_i hfree
  cases hgmail : facts.gmail with
  | some gmail =>
    rw [hgmail] at hw
    simp only [Except.bind_eq_ok, pure, Except.pure, Except.ok.injEq] at hw
    obtain ⟨⟨written, wrote⟩, hwrite, rfl⟩ := hw
    have hspares : Spares id b.writing.tables written.tables := by
      rw [Arrival.write] at hwrite
      split at hwrite
      · rename_i row hrow
        obtain ⟨hrow, hmsgid⟩ := Table.mem_of_find? hrow
        split at hwrite
        · simp only [pure, Except.pure, Except.ok.injEq, Prod.mk.injEq] at hwrite
          obtain ⟨rfl, -⟩ := hwrite
          exact .of_tables rfl rfl
        · rename_i hchases
          simp only [Except.bind_eq_ok, pure, Except.pure, Except.ok.injEq, Prod.mk.injEq] at hwrite
          obtain ⟨placed, hplace, rfl, -⟩ := hwrite
          refine (place_spec hplace).2.2 id fun hid => ?_
          -- The email itself would be under the UID of the message.
          obtain ⟨hfolder, hlive⟩ := hheld gmail hgmail row hrow hid.symm hmsgid
          have huid : row.uid = (facts.uid : Int) := by
            by_contra hne
            exact hchases ⟨hfolder, hlive, hne⟩
          refine hfree (Option.isSome_iff_ne_none.2 fun hnone => ?_)
          exact Table.find?_eq_none.1 hnone row hrow ⟨hfolder, huid⟩
      · simp only [Except.bind_eq_ok, pure, Except.pure, Except.ok.injEq, Prod.mk.injEq] at hwrite
        obtain ⟨placed, hplace, rfl, -⟩ := hwrite
        exact (place_spec hplace).2.2 id hmint.symm
    cases wrote <;> exact hspares
  | none =>
    rw [hgmail] at hw
    dsimp only at hw
    split at hw
    · simp only [Except.bind_eq_ok, pure, Except.pure, Except.ok.injEq] at hw
      obtain ⟨sealed, -, t, hi, rfl⟩ := hw
      obtain ⟨rethread, hthreads, hjoined⟩ :=
        join_rows b.writing (namedHashes sealer facts.personal) (mint n).threadId
      obtain ⟨hrows, hmembers, -, -⟩ := insert_spec hi
      refine ⟨fun r hr hid => ?_, fun m => ?_⟩
      · obtain ⟨thread, hthread⟩ := hthreads r
        refine ⟨thread, (hrows _).2 (.inl ?_)⟩
        rw [Table.mem_def, hjoined, ← hthread]
        exact List.mem_map_of_mem hr
      · rw [MemberOf, MemberOf]
        simp only [hmembers, (join_frame b.writing _ _).1]
        constructor
        · rintro ⟨x, hx | rfl, hid, hm⟩
          · exact ⟨x, hx, hid, hm⟩
          · exact absurd hid hmint
        · rintro ⟨x, hx, hid, hm⟩
          exact ⟨x, .inl hx, hid, hm⟩
    · rename_i matched hmatched
      simp only [Except.bind_eq_ok, pure, Except.pure, Except.ok.injEq] at hw
      obtain ⟨sealed, -, t, hr, rfl⟩ := hw
      obtain ⟨v, hv, rfl⟩ := (popWaiting_spec b.waiting _).2 _ hmatched
      simp only [rewrite, Except.bind_eq_ok, constrained_eq_ok, pure, Except.pure,
        Except.ok.injEq] at hr
      obtain ⟨rows, hrows, rfl⟩ := hr
      refine ⟨fun r hr hid => ⟨r.threadId, (Table.mem_update? hrows).2 ⟨r, hr, ?_⟩⟩, fun m => Iff.rfl⟩
      exact if_neg fun h => hwaits v hv (h.symm.trans hid)

end

/-! ## The message arrives -/

/-- The message lies in the folder under its new UID: the one row with its message id, under the email's
id, with the keywords the server gives it and a member of the mailboxes its labels name. -/
structure Moved (id : EmailId) (folder : MailboxId) (facts : EmailFacts) (gmail : GmailFacts)
    (labels : Labels) (t : Tables) : Prop where
  row : ∃ r ∈ t.emails, r.id = id ∧ r.folderId = folder ∧ r.uid = facts.uid ∧
    r.keywords = facts.keywords ∧ r.gmailMsgid = some gmail.storedMsgid
  only : ∀ r ∈ t.emails, r.gmailMsgid = some gmail.storedMsgid → r.id = id
  members : ∀ m, MemberOf t id m ↔ m ∈ labels.memberships folder gmail.labels

section

variable {id : EmailId} {facts : EmailFacts} {gmail : GmailFacts} {labels : Labels}
  {sealer : Sealer} {mint : Nat → Minted} {b b₂ : Batching}

/-- Two rows under one message id are one row. -/
theorem EmailRecord.eq_of_msgid {r s : EmailRecord} {msgid : Int} (hr : r ∈ t.emails)
    (hs : s ∈ t.emails) (h : r.gmailMsgid = some msgid) (h' : s.gmailMsgid = some msgid) : r = s :=
  t.emails.unique hr hs fun hapart => hapart.2.2 ⟨by rw [h]; rfl, h.trans h'.symm⟩

theorem Moved.of_row (hrow : ∃ r ∈ t.emails, r.id = id ∧ r.folderId = folder ∧ r.uid = facts.uid ∧
      r.keywords = facts.keywords ∧ r.gmailMsgid = some gmail.storedMsgid)
    (hmembers : ∀ m, MemberOf t id m ↔ m ∈ labels.memberships folder gmail.labels) :
    Moved id folder facts gmail labels t := by
  refine ⟨hrow, fun s hs hmsgid => ?_, hmembers⟩
  obtain ⟨r, hr, rfl, -, -, -, hmsgid'⟩ := hrow
  rw [EmailRecord.eq_of_msgid hs hr hmsgid hmsgid']

theorem Moved.kept (h : Moved id folder facts gmail labels t) (hs : Spares id t t') :
    Moved id folder facts gmail labels t' := by
  refine .of_row ?_ fun m => (hs.members m).trans (h.members m)
  obtain ⟨r, hr, hid, hrest⟩ := h.row
  obtain ⟨thread, hthread⟩ := hs.row r hr hid
  exact ⟨_, hthread, hid, hrest⟩

/-- **The message itself** is written over the row that holds it. -/
theorem writeFacts_arrives {r : EmailRecord} {n : Nat} (hr : r ∈ b.writing.tables.emails)
    (hmsgid : r.gmailMsgid = some gmail.storedMsgid) (hfar : r.folderId ≠ folder)
    (hfree : holds b.writing.tables folder facts.uid = false) (hgmail : facts.gmail = some gmail)
    (hw : writeFacts sealer mint folder labels b (facts, n) = .ok b₂) :
    Moved r.id folder facts gmail labels b₂.writing.tables ∧ b₂.waiting = b.waiting := by
  have hheld : held b.writing.tables gmail.storedMsgid = some r :=
    Table.find?_eq_some hr hmsgid fun s hs h => EmailRecord.eq_of_msgid hs hr h hmsgid
  simp only [writeFacts, hfree, Bool.false_eq_true, if_false, hgmail, Except.bind_eq_ok, pure,
    Except.pure, Except.ok.injEq] at hw
  obtain ⟨⟨written, wrote⟩, hwrite, rfl⟩ := hw
  rw [Arrival.write] at hwrite
  simp only [hheld] at hwrite
  rw [if_neg fun hchases => hfar hchases.1] at hwrite
  simp only [Except.bind_eq_ok, pure, Except.pure, Except.ok.injEq, Prod.mk.injEq] at hwrite
  obtain ⟨placed, hplace, rfl, rfl⟩ := hwrite
  obtain ⟨htaken, hmembers, -⟩ := place_spec hplace
  obtain ⟨sealed, htaken⟩ := htaken r hr rfl
  exact ⟨.of_row ⟨_, htaken, rfl, rfl, rfl, rfl, hmsgid⟩ hmembers, rfl⟩

/-- **The messages ahead of it** leave its row where it waits and its UID free. -/
theorem loop_before {r : EmailRecord} {messages : List (EmailFacts × Nat)} {uid : Nat} {msgid : Int}
    (hr : r ∈ b.writing.tables.emails) (hmsgid : r.gmailMsgid = some msgid)
    (hfree : holds b.writing.tables folder uid = false) (hwaits : ∀ v ∈ b.waiting, v.2 ≠ r.id)
    (hmint : ∀ n, (mint n).emailId ≠ r.id)
    (hother : ∀ message ∈ messages, message.1.uid ≠ uid ∧
      ∀ gmail, message.1.gmail = some gmail → gmail.storedMsgid ≠ msgid)
    (hloop : messages.foldlM (writeFacts sealer mint folder labels) b = .ok b₂) :
    (∃ thread, { r with threadId := thread } ∈ b₂.writing.tables.emails) ∧
      holds b₂.writing.tables folder uid = false ∧ ∀ v ∈ b₂.waiting, v.2 ≠ r.id := by
  refine foldlM_keeps (P := fun b : Batching =>
    (∃ thread, { r with threadId := thread } ∈ b.writing.tables.emails) ∧
      holds b.writing.tables folder uid = false ∧ ∀ v ∈ b.waiting, v.2 ≠ r.id)
    ⟨⟨r.threadId, hr⟩, hfree, hwaits⟩ (fun message hmessage b b' h hw => ?_) hloop
  obtain ⟨⟨thread, hrow⟩, hfree, hwaits⟩ := h
  obtain ⟨huid, hmsgids⟩ := hother message hmessage
  obtain ⟨hlands, hsub⟩ := lands_writeFacts hw
  have hspares : Spares r.id b.writing.tables b'.writing.tables := by
    refine writeFacts_spares hwaits (hmint _) (fun gmail hgmail s hs hid hheld => ?_) hw
    -- The row of the email holds another message id.
    obtain rfl := EmailRecord.eq_of_id hs hrow hid
    exact absurd (Option.some.inj (hheld.symm.trans hmsgid)) (hmsgids gmail hgmail)
  obtain ⟨thread', hrow'⟩ := hspares.row _ hrow rfl
  exact ⟨⟨thread', hrow'⟩, hlands.free huid.symm hfree, fun v hv => hwaits v (hsub hv)⟩

/-- **The messages behind it** leave it where it came to lie. -/
theorem loop_after {messages : List (EmailFacts × Nat)}
    (h : Moved id folder facts gmail labels b.writing.tables) (hlive : 0 < facts.uid)
    (hwaits : ∀ v ∈ b.waiting, v.2 ≠ id) (hmint : ∀ n, (mint n).emailId ≠ id)
    (hloop : messages.foldlM (writeFacts sealer mint folder labels) b = .ok b₂) :
    Moved id folder facts gmail labels b₂.writing.tables := by
  refine (foldlM_keeps (P := fun b : Batching =>
    Moved id folder facts gmail labels b.writing.tables ∧ ∀ v ∈ b.waiting, v.2 ≠ id)
    ⟨h, hwaits⟩ (fun message _ b b' h hw => ?_) hloop).1
  obtain ⟨hmoved, hwaits⟩ := h
  obtain ⟨-, hsub⟩ := lands_writeFacts hw
  refine ⟨hmoved.kept (writeFacts_spares hwaits (hmint _) (fun _ _ s hs hid _ => ?_) hw),
    fun v hv => hwaits v (hsub hv)⟩
  obtain ⟨r, hr, hid', hfolder, huid, -⟩ := hmoved.row
  obtain rfl := EmailRecord.eq_of_id hs hr (hid.trans hid'.symm)
  exact ⟨hfolder, by omega⟩

/-! ## The end of a batch and the sweep -/

/-- An email whose rows do not wait stays when waiting rows leave. -/
theorem leave_spares {left : MailboxId} {sequence : Nat}
    (h : ∀ r ∈ t.emails, r.id = id → 0 ≤ r.uid) : Spares id t (leave t left sequence .unmatched) := by
  obtain ⟨hemails, hmembers, -⟩ := leave_spec t left sequence .unmatched
  refine ⟨fun r hr hid => ⟨r.threadId, (hemails r).2 ⟨hr, fun hleaves => ?_⟩⟩, fun m => ?_⟩
  · have := h r hr hid
    have hwaits : r.uid < 0 := hleaves.2
    omega
  · rw [MemberOf, MemberOf]
    simp only [hmembers]
    constructor
    · rintro ⟨x, ⟨hx, -⟩, hid, hm⟩
      exact ⟨x, hx, hid, hm⟩
    · rintro ⟨x, hx, rfl, hm⟩
      refine ⟨x, ⟨hx, fun r hr hleaves hid => ?_⟩, rfl, hm⟩
      have := h r hr hid
      have hwaits : r.uid < 0 := hleaves.2
      omega

theorem Moved.live (h : Moved id folder facts gmail labels t) {r : EmailRecord} (hr : r ∈ t.emails)
    (hid : r.id = id) : 0 ≤ r.uid := by
  obtain ⟨s, hs, hid', -, huid, -⟩ := h.row
  obtain rfl := EmailRecord.eq_of_id hr hs (hid.trans hid'.symm)
  omega

theorem Moved.leave (h : Moved id folder facts gmail labels t) (left : MailboxId) (sequence : Nat) :
    Moved id folder facts gmail labels (leave t left sequence .unmatched) :=
  h.kept (leave_spares fun _ hr hid => h.live hr hid)

theorem Moved.of_tables (h : Moved id folder facts gmail labels t) (he : t'.emails = t.emails)
    (hm : t'.memberships = t.memberships) : Moved id folder facts gmail labels t' :=
  h.kept (.of_tables he hm)

theorem Moved.log (h : Moved id folder facts gmail labels t) {sequence : Nat} {x : Slot}
    {kind : ChangeKind} (hl : Huliho.log t sequence x kind = .ok t') :
    Moved id folder facts gmail labels t' := by
  obtain ⟨changes, -, rfl⟩ := log_eq_ok hl
  exact h.of_tables rfl rfl

/-- **The sweep does not take it.** -/
theorem Moved.sweep (h : Moved id folder facts gmail labels t) {state : Nat}
    (hs : sweepParked t = .ok (t', state)) : Moved id folder facts gmail labels t' := by
  unfold sweepParked at hs
  simp only at hs
  split at hs
  · obtain ⟨rfl, -⟩ := Prod.mk.inj (Except.ok.inj hs)
    exact h
  · rw [Except.bind_eq_ok] at hs
    obtain ⟨t₁, hloop, hs⟩ := hs
    obtain ⟨rfl, -⟩ := Prod.mk.inj (Except.ok.inj hs)
    have hopened : Moved id folder facts gmail labels (nextSequence t).1 := h.of_tables rfl rfl
    have hswept : Moved id folder facts gmail labels t₁ :=
      foldlM_keeps (P := Moved id folder facts gmail labels) hopened
        (fun left _ t t' h hl => (h.leave left _).log hl) hloop
    exact hswept.of_tables rfl rfl

/-- A batch writes its folder's UIDVALIDITY where none was known, and no other column of a mailbox. -/
theorem writeBatch_mailboxes {batch : Batch} {state : Option Nat}
    (hw : writeBatch sealer mint t batch = .ok (t', state)) :
    t'.mailboxes = (pinned t ⟨batch.folder, batch.uidValidity⟩).1.mailboxes := by
  rcases writeBatch_stages hw with ⟨rfl, -⟩ | ⟨-, b, hloop, hstages⟩
  · rfl
  have hloop : b.writing.tables.mailboxes =
      (pinned t ⟨batch.folder, batch.uidValidity⟩).1.mailboxes :=
    foldlM_keeps (P := fun b : Batching => b.writing.tables.mailboxes =
      (pinned t ⟨batch.folder, batch.uidValidity⟩).1.mailboxes) rfl
      (fun p _ b b' hb hf => (writeFacts_frame hf).1.trans hb) hloop
  have hsaved : (save b.writing.tables batch.folder batch.advance).1.mailboxes =
      b.writing.tables.mailboxes := by
    cases batch.advance <;> rfl
  rw [← hloop, ← hsaved]
  rcases hstages with ⟨rfl, -⟩ | ⟨t₂, t₃, hledger, hlog, rfl⟩
  · rfl
  have hwritten : t₂.mailboxes = (save b.writing.tables batch.folder batch.advance).1.mailboxes := by
    rw [(Ledger.logsUnder_write hledger).frame]
    rfl
  rw [log_frame hlog, ← hwritten]
  change (if _ then _ else t₂).mailboxes = _
  split
  · rw [(leave_spec t₂ batch.folder _ .unmatched).frame]
  · rfl

/-! ## The move -/

/-- A Gmail message that moved: its row lies in the folder it left, which stands, and a batch of another
folder names it, as no message ahead of it does. -/
structure Moves (t : Tables) (standing : Standing) (batch : Batch) (r : EmailRecord)
    (facts : EmailFacts) (gmail : GmailFacts) : Prop where
  row : r ∈ t.emails
  folder : r.folderId = standing.folder
  msgid : r.gmailMsgid = some gmail.storedMsgid
  stands : ∃ m ∈ t.mailboxes, m.row.id = standing.folder ∧
    m.row.facts.uidValidity = some standing.uidValidity
  far : batch.folder ≠ standing.folder
  carries : facts.gmail = some gmail
  live : 0 < facts.uid
  free : holds t batch.folder facts.uid = false
  named : ∃ ahead behind, batch.emails = ahead ++ facts :: behind ∧ ∀ other ∈ ahead,
    other.uid ≠ facts.uid ∧ ∀ gmail', other.gmail = some gmail' →
      gmail'.storedMsgid ≠ gmail.storedMsgid

variable {standing : Standing} {batch : Batch} {r : EmailRecord} {state : Nat}

theorem pinned_eq (h : ∃ m ∈ t.mailboxes, m.row.id = standing.folder ∧
    m.row.facts.uidValidity = some standing.uidValidity) : pinned t standing = (t, true) := by
  obtain ⟨m, hm, hid, hvalidity⟩ := h
  have hfound : (t.mailboxes.find? fun r => r.row.id = standing.folder) = some m := by
    refine Table.find?_eq_some hm hid fun s hs hid' => ?_
    exact t.mailboxes.unique hs hm fun hapart => hapart.1 (hid'.trans hid.symm)
  unfold pinned
  simp [hfound, hvalidity]

/-- The folder the message left stands after the batch. -/
theorem Moves.stands_after (h : Moves t standing batch r facts gmail)
    (hw : writeBatch sealer mint t batch = .ok (t₂, some state)) :
    pinned t₂ standing = (t₂, true) := by
  obtain ⟨m, hm, hid, hvalidity⟩ := h.stands
  refine pinned_eq ⟨m, ?_, hid, hvalidity⟩
  rw [writeBatch_mailboxes hw]
  unfold pinned
  split
  · exact hm
  · split
    · refine (Table.mem_revise (MailboxRecord.numbered_apart _ _)).2 ⟨m, hm, if_neg ?_⟩
      exact fun hnumbered => h.far (hnumbered.symm.trans hid)
    · exact hm

/-- **The batch moves the row.** -/
theorem Moves.moved (h : Moves t standing batch r facts gmail) (hmint : ∀ n, (mint n).emailId ≠ r.id)
    (hw : writeBatch sealer mint t batch = .ok (t₂, some state)) :
    Moved r.id batch.folder facts gmail (Labels.read t₂ batch.folder) t₂ := by
  have hlabels : Labels.read t₂ batch.folder =
      Labels.read (pinned t ⟨batch.folder, batch.uidValidity⟩).1 batch.folder := by
    rw [Labels.read, Labels.read, writeBatch_mailboxes hw]
  rw [hlabels]
  rcases writeBatch_stages hw with ⟨-, hstate⟩ | ⟨-, b, hloop, hstages⟩
  · cases hstate
  generalize Labels.read (pinned t ⟨batch.folder, batch.uidValidity⟩).1 batch.folder = labels at hloop ⊢
  have hemails := pinned_emails t ⟨batch.folder, batch.uidValidity⟩
  revert hloop hemails
  generalize (pinned t ⟨batch.folder, batch.uidValidity⟩).1 = t₀
  intro hloop hemails
  have hmoved : Moved r.id batch.folder facts gmail labels b.writing.tables := by
    obtain ⟨ahead, behind, hnames, hahead⟩ := h.named
    rw [hnames, List.zipIdx_append, List.zipIdx_cons, List.foldlM_append, Except.bind_eq_ok] at hloop
    obtain ⟨b₁, hloop₁, hloop⟩ := hloop
    rw [List.foldlM_cons, Except.bind_eq_ok] at hloop
    obtain ⟨b₂, hone, hloop₂⟩ := hloop
    have hrow : r ∈ t₀.emails := hemails ▸ h.row
    have hfree : holds t₀ batch.folder facts.uid = false := by
      rw [holds, hemails]
      exact h.free
    have hwaits : ∀ v ∈ unmatched t₀ batch.folder, v.2 ≠ r.id := by
      intro v hv hid
      obtain ⟨s, hs, rfl⟩ := List.mem_map.1 hv
      obtain ⟨hs, hcond⟩ := List.mem_filter.1 hs
      obtain rfl := EmailRecord.eq_of_id hs hrow hid
      have hthere : s.folderId = batch.folder ∧ s.uid < 0 := by simpa using hcond
      exact h.far (hthere.1.symm.trans h.folder)
    obtain ⟨⟨thread, hrow₁⟩, hfree₁, hwaits₁⟩ := loop_before hrow h.msgid hfree hwaits hmint
      (fun message hmessage => hahead _ (List.fst_mem_of_mem_zipIdx hmessage)) hloop₁
    obtain ⟨hmoved, hwaiting⟩ := writeFacts_arrives hrow₁ h.msgid
      (h.folder.trans_ne h.far.symm) hfree₁ h.carries hone
    exact loop_after hmoved h.live (hwaiting ▸ hwaits₁) hmint hloop₂
  have hsaved : Moved r.id batch.folder facts gmail labels
      (save b.writing.tables batch.folder batch.advance).1 := by
    refine hmoved.of_tables (save_emails _ _ _) ?_
    cases batch.advance <;> rfl
  rcases hstages with ⟨rfl, -⟩ | ⟨t₃, t₄, hledger, hlog, rfl⟩
  · exact hsaved
  have hframe := (Ledger.logsUnder_write hledger).frame
  have hwritten : Moved r.id batch.folder facts gmail labels t₃ := by
    refine hsaved.of_tables ?_ ?_ <;> · rw [hframe]; rfl
  have hleft : Moved r.id batch.folder facts gmail labels
      (if (save b.writing.tables batch.folder batch.advance).2 then
        leave t₃ batch.folder (nextSequence (save b.writing.tables batch.folder batch.advance).1).2
          .unmatched else t₃) := by
    split
    · exact hwritten.leave _ _
    · exact hwritten
  exact (hleft.log hlog).of_tables rfl rfl

/-- A write does not log an email as destroyed that stays. -/
theorem Outcome.undestroyed (h : Outcome t t') (hstays : ∃ r ∈ t'.emails, r.id = id) {row : LogRow}
    (hrow : row ∈ t'.changes) (hslot : row.slot = (.email, id)) (hkind : row.kind = .destroyed) :
    row ∈ t.changes := by
  rcases h.told with hquiet | htold
  · exact hquiet.changes ▸ hrow
  have hreached := h.inv.below row hrow
  rw [htold.sequence] at hreached
  by_cases hold : row.sequence ≤ t.sequence
  · obtain ⟨low, -, hkept⟩ := htold.kept
    exact ((hkept row hold).1 hrow).1
  · -- A row under the new state says that the email is gone.
    have hat : row.sequence = t'.sequence := by
      rw [htold.sequence]
      omega
    have hentry : entryAt t' t'.sequence (.email, id) = some .destroyed := by
      rw [entryAt_eq_some, ← hslot, ← hkind, ← hat]
      exact hrow
    have htracks := htold.tracks (.email id)
    change Agrees (entryAt t' t'.sequence (.email, id)) _ _ at htracks
    rw [hentry] at htracks
    have hthere := view_email_isSome.2 hstays
    simp [Agrees, ChangeKind.Between] at htracks
    simp [htracks] at hthere

/-- **A message that moved ends in the same row, whichever folder is refreshed first.** The row waits
when the message arrives, or the message arrives and the expunge names UIDs of which the folder holds
fewer by then: the tables come out the same. The email keeps its id, no other row holds the message, no
log calls it destroyed, and the sweep at the end of the pass leaves it so. -/
theorem moves_alike {store : Store} (hreach : Reachable store)
    (h : Moves store.tables standing batch r facts gmail)
    (hmint : Minting mint batch.emails store.tables) {uids' : List Nat}
    (hpark : parkUids store.tables standing uids = .ok (t₁, some ()))
    (hwrite : writeBatch sealer mint store.tables batch = .ok (t₂, some state))
    (hsub : uids' ⊆ uids)
    (hheld : ∀ uid ∈ uids, holds t₂ standing.folder uid = true → uid ∈ uids') :
    ∃ t', writeBatch sealer mint t₁ batch = .ok (t', some state) ∧
      parkUids t₂ standing uids' = .ok (t', some ()) ∧
      (Moved r.id batch.folder facts gmail (Labels.read t' batch.folder) t' ∧
        ∀ row ∈ t'.changes, row.slot = (.email, r.id) → row.kind = .destroyed →
          row ∈ store.tables.changes) ∧
      ∀ swept state', sweepParked t' = .ok (swept, state') →
        Moved r.id batch.folder facts gmail (Labels.read t' batch.folder) swept ∧
          ∀ row ∈ swept.changes, row.slot = (.email, r.id) → row.kind = .destroyed →
            row ∈ store.tables.changes := by
  have hinv := hreach.inv
  obtain ⟨e₁, hparked₁, rfl⟩ := (parkUids_eq_ok (pinned_eq h.stands)).1 hpark
  obtain ⟨e', hparked, hwrite'⟩ := writeBatch_parked hparked₁ h.far hwrite
  -- The UIDs the folder does not hold anymore park nothing.
  have hparked' : ParkedRows standing.folder uids' t₂.emails e' := by
    rw [ParkedRows, hparked]
    refine List.map_congr_left fun s hs => ?_
    unfold EmailRecord.parks
    have hsame : (s.folderId = standing.folder ∧ ∃ uid ∈ uids, s.uid = (uid : Int)) ↔
        s.folderId = standing.folder ∧ ∃ uid ∈ uids', s.uid = (uid : Int) := by
      refine and_congr_right fun hfolder => ⟨?_, ?_⟩
      · rintro ⟨uid, huid, hat⟩
        refine ⟨uid, hheld uid huid (Option.isSome_iff_ne_none.2 fun hnone => ?_), hat⟩
        exact Table.find?_eq_none.1 hnone s hs ⟨hfolder, hat⟩
      · rintro ⟨uid, huid, hat⟩
        exact ⟨uid, hsub huid, hat⟩
    simp only [hsame]
  have hpark' : parkUids t₂ standing uids' = .ok ({ t₂ with emails := e' }, some ()) :=
    (parkUids_eq_ok (h.stands_after hwrite)).2 ⟨e', hparked', rfl⟩
  have hmoved := h.moved (fun n => (hmint.ids n r h.row).symm) hwrite
  have hended : Moved r.id batch.folder facts gmail (Labels.read t₂ batch.folder)
      { t₂ with emails := e' } := by
    refine .of_row ?_ hmoved.members
    obtain ⟨s, hs, hid, hfolder, hrest⟩ := hmoved.row
    refine ⟨s, ?_, hid, hfolder, hrest⟩
    change s ∈ e'.rows
    rw [hparked']
    refine List.mem_map.2 ⟨s, hs, EmailRecord.parks_of_ne ?_⟩
    exact hfolder.trans_ne h.far
  have hwritten : Outcome store.tables t₂ := writeBatch_outcome hinv hmint hwrite
  have hquiet : Outcome t₂ { t₂ with emails := e' } := .quiet hwritten.inv (parkUids_unseen hpark')
  have hstays : ∀ {t : Tables}, Moved r.id batch.folder facts gmail (Labels.read t₂ batch.folder) t →
      ∃ s ∈ t.emails, s.id = r.id := by
    intro t hmoved
    obtain ⟨s, hs, hid, -⟩ := hmoved.row
    exact ⟨s, hs, hid⟩
  have hlog : ∀ row ∈ t₂.changes, row.slot = (.email, r.id) → row.kind = .destroyed →
      row ∈ store.tables.changes := fun row hrow hslot hkind =>
    hwritten.undestroyed (hstays hmoved) hrow hslot hkind
  refine ⟨{ t₂ with emails := e' }, hwrite', hpark', ⟨hended, hlog⟩, fun swept state' hsweep => ?_⟩
  have hswept := hended.sweep hsweep
  refine ⟨hswept, fun row hrow hslot hkind => hlog row ?_ hslot hkind⟩
  exact (sweepParked_outcome hquiet.inv hsweep).undestroyed (hstays hswept) hrow hslot hkind

end

theorem exists_ok_of_map {α β ε : Type} {x : Except ε (α × β)} {b : β}
    (h : x.toOption.map Prod.snd = some b) : ∃ a, x = .ok (a, b) := by
  cases x with
  | error => cases h
  | ok answer => exact ⟨answer.1, congrArg Except.ok (Prod.ext rfl (Option.some.inj h))⟩

/-- A Gmail account with All Mail and Trash. -/
def twoStores : Store :=
  (Store.fresh.run (.mailboxes id (lettered 'm')
    [folderFacts "All" (some "archive") none, folderFacts "Trash" (some "trash") none])).1

/-- One message under a UID. -/
def gmailFacts (uid : Nat) : EmailFacts := { plainFacts uid with gmail := some ⟨[], 7, 8⟩ }

/-- The batch that names it in All Mail. -/
def intoAllMail : Write :=
  .batch plainSealer (numberedMint 'e' 'd')
    ⟨"mAll", 1, [gmailFacts 1], .down (some 1) true ⟨none, none, none⟩⟩

/-- The batch that names it in Trash. -/
def intoTrash : Batch := ⟨"mTrash", 1, [gmailFacts 5], .up 6 1⟩

theorem twoStores_reachable : Reachable twoStores :=
  .run .fresh (.mailboxes id (lettered 'm') _) (listing_numbered (by decide) (by decide +kernel))

theorem inAllMail_reachable : Reachable (twoStores.run intoAllMail).1 :=
  .run twoStores_reachable intoAllMail
    (minting_numbered (by decide +kernel) (by decide +kernel) (by decide +kernel))

/-- A message trashed elsewhere lies in Trash either way. -/
theorem moves_alike_trashed : ∃ r t₁ t₂ t',
    parkUids (twoStores.run intoAllMail).1.tables ⟨"mAll", 1⟩ [1] = .ok (t₁, some ()) ∧
      writeBatch plainSealer (numberedMint 'f' 'g') (twoStores.run intoAllMail).1.tables intoTrash =
        .ok (t₂, some 3) ∧
      writeBatch plainSealer (numberedMint 'f' 'g') t₁ intoTrash = .ok (t', some 3) ∧
      parkUids t₂ ⟨"mAll", 1⟩ [1] = .ok (t', some ()) ∧
      Moved r "mTrash" (gmailFacts 5) ⟨[], 7, 8⟩ (Labels.read t' "mTrash") t' := by
  have hrow : ∃ r ∈ (twoStores.run intoAllMail).1.tables.emails.rows,
      r.folderId = "mAll" ∧ r.gmailMsgid = some 7 := by decide +kernel
  obtain ⟨r, hr, hfolder, hmsgid⟩ := hrow
  have hpark : ∃ t₁, parkUids (twoStores.run intoAllMail).1.tables ⟨"mAll", 1⟩ [1] =
      .ok (t₁, some ()) := by
    have hok : ((parkUids (twoStores.run intoAllMail).1.tables ⟨"mAll", 1⟩ [1]).toOption.map
        Prod.snd) = some (some ()) := by decide +kernel
    exact exists_ok_of_map hok
  have hwrite : ∃ t₂, writeBatch plainSealer (numberedMint 'f' 'g')
      (twoStores.run intoAllMail).1.tables intoTrash = .ok (t₂, some 3) := by
    have hok : ((writeBatch plainSealer (numberedMint 'f' 'g')
        (twoStores.run intoAllMail).1.tables intoTrash).toOption.map Prod.snd) = some (some 3) := by
      decide +kernel
    exact exists_ok_of_map hok
  obtain ⟨t₁, hpark⟩ := hpark
  obtain ⟨t₂, hwrite⟩ := hwrite
  have hmoves : Moves (twoStores.run intoAllMail).1.tables ⟨"mAll", 1⟩ intoTrash r (gmailFacts 5)
      ⟨[], 7, 8⟩ :=
    ⟨hr, hfolder, hmsgid, by decide +kernel, by decide, rfl, by decide, by decide +kernel, [], [], rfl,
      fun _ h => absurd h List.not_mem_nil⟩
  have hmint : Minting (numberedMint 'f' 'g') intoTrash.emails
      (twoStores.run intoAllMail).1.tables :=
    minting_numbered (by decide +kernel) (by decide +kernel) (by decide +kernel)
  obtain ⟨t', hwrite', hpark', ⟨hmoved, -⟩, -⟩ := moves_alike inAllMail_reachable hmoves hmint hpark hwrite
    (List.Subset.refl _) fun _ huid _ => huid
  exact ⟨r.id, t₁, t₂, t', hpark, hwrite, hwrite', hpark', hmoved⟩

end Huliho
