import Huliho.Lib.Loops
import Huliho.Store.Closing

/-!
# A batch tells what it did

The loop of a batch keeps two things from message to message: the write is sound, and the rows
stand so that what still waits when the folder is done may leave (`BatchRows`). The second is about the threads a batch starts. Such a thread never comes to hold waiting rows alone:
either all its rows lie settled in the folder, or one of them is settled there and carries no
X-GM-MSGID, and such a row is moved by no arrival. So a thread that leaves with its last waiting
row was there before the batch, and `leave` may log it as destroyed.
-/

namespace Huliho

variable {before t t' : Tables} {folder : MailboxId} {mint : Nat → Minted}
  {p : EmailFacts × Nat} {rest : List (EmailFacts × Nat)} {waiting : List (Identity × EmailId)}

/-- A row of the folder that does not wait. -/
def Settled (folder : MailboxId) (r : EmailRecord) : Prop := r.folderId = folder ∧ 0 ≤ r.uid

/-- The generators answer ids nothing carries: no row, no thread, no other turn of the loop and no
thread a server names. -/
structure Minting (mint : Nat → Minted) (emails : List EmailFacts) (t : Tables) : Prop where
  ids : ∀ n, ∀ r ∈ t.emails, r.id ≠ (mint n).emailId
  threads : ∀ n, ¬ Holding t (mint n).threadId
  apart : ∀ n m, n ≠ m →
    (mint n).emailId ≠ (mint m).emailId ∧ (mint n).threadId ≠ (mint m).threadId
  gmail : ∀ n, ∀ facts ∈ emails, ∀ gmail, facts.gmail = some gmail →
    gmail.thread ≠ (mint n).threadId

/-- The rows inside a batch, with `rest` still to come. -/
structure BatchRows (before : Tables) (folder : MailboxId) (mint : Nat → Minted)
    (rest : List (EmailFacts × Nat)) (waiting : List (Identity × EmailId)) (t : Tables) :
    Prop where
  ids : ∀ q ∈ rest, ∀ r ∈ t.emails, r.id ≠ (mint q.2).emailId
  threads : ∀ q ∈ rest, ¬ Holding t (mint q.2).threadId
  waiting : ∀ w ∈ waiting, ∃ r ∈ t.emails, r.id = w.2
  below : ∀ r ∈ t.emails, r.uid < 0 → ∃ r' ∈ before.emails, r'.id = r.id
  settled : ∀ thread, ¬ Holding before thread →
    (∀ r ∈ t.emails, r.threadId = thread → Settled folder r) ∨
      ∃ r ∈ t.emails, r.threadId = thread ∧ Settled folder r ∧ r.gmailMsgid = none

/-- At the start only the ids matter: every thread that holds an email was there before. -/
theorem BatchRows.start {emails : List EmailFacts} (hm : Minting mint emails t) :
    BatchRows t folder mint emails.zipIdx (unmatched t folder) t := by
  refine ⟨fun q _ => hm.ids q.2, fun q _ => hm.threads q.2, fun w hw => ?_,
    fun r hr _ => ⟨r, hr, rfl⟩, fun thread hth => .inl fun r hr hc => absurd ⟨r, hr, hc⟩ hth⟩
  obtain ⟨r, hr, rfl⟩ := List.mem_map.1 hw
  exact ⟨r, (List.mem_filter.1 hr).1, rfl⟩

/-- A message that writes nothing, and a waiting row that was taken. -/
theorem BatchRows.skip (h : BatchRows before folder mint (p :: rest) waiting t)
    {waiting' : List (Identity × EmailId)} (hw : waiting' ⊆ waiting) :
    BatchRows before folder mint rest waiting' t :=
  ⟨fun q hq => h.ids q (List.mem_cons_of_mem _ hq), fun q hq => h.threads q (List.mem_cons_of_mem _ hq),
    fun w hin => h.waiting w (hw hin), h.below, h.settled⟩

/-- A message that joined its thread and went in as a new row. -/
theorem BatchRows.inserted {w : Writing}
    (h : BatchRows before folder mint (p :: rest) waiting w.tables) {losers : List ThreadId}
    {row : EmailRecord} (hi : Inserted w losers row t) (hid : row.id = (mint p.2).emailId)
    (hth : Holding w.tables row.threadId ∨ row.threadId = (mint p.2).threadId)
    (hset : Settled folder row) (hmsg : row.gmailMsgid = none)
    (hd : ∀ q ∈ rest, (mint q.2).emailId ≠ (mint p.2).emailId ∧
      (mint q.2).threadId ≠ (mint p.2).threadId) :
    BatchRows before folder mint rest waiting t := by
  refine ⟨fun q hq r hr => ?_, fun q hq hc => ?_, fun v hv => ?_, fun r hr hneg => ?_,
    fun thread hnew => ?_⟩
  · rcases (hi.rows r).1 hr with ⟨s, hs, rfl⟩ | rfl
    · rw [EmailRecord.rethreads_id]
      exact h.ids q (List.mem_cons_of_mem _ hq) s hs
    · rw [hid]
      exact (hd q hq).1.symm
  · have hfree := h.threads q (List.mem_cons_of_mem _ hq)
    rcases hi.holding_iff.1 hc with hc | ⟨-, hc⟩
    · rcases hth with hold | hgen
      · exact hfree (hc ▸ hold)
      · exact (hd q hq).2 (hc.trans hgen)
    · exact hfree hc
  · obtain ⟨s, hs, hv⟩ := h.waiting v hv
    exact ⟨_, (hi.rows _).2 (.inl ⟨s, hs, rfl⟩), by simpa using hv⟩
  · rcases (hi.rows r).1 hr with ⟨s, hs, rfl⟩ | rfl
    · rw [EmailRecord.rethreads_uid] at hneg
      rw [EmailRecord.rethreads_id]
      exact h.below s hs hneg
    · have := hset.2
      omega
  · by_cases hself : thread = row.threadId
    · exact .inr ⟨row, (hi.rows row).2 (.inr rfl), hself.symm, hset, hmsg⟩
    · -- A thread that merged away is empty; any other thread holds what it held.
      by_cases hl : thread ∈ losers
      · refine .inl fun r hr hc => ?_
        have hgone : ¬ Holding t thread := fun hc => by
          rcases hi.holding_iff.1 hc with hc | ⟨hc, -⟩
          · exact hself hc
          · exact hc hl
        exact absurd ⟨r, hr, hc⟩ hgone
      · have hsame : ∀ s : EmailRecord, s.threadId = thread →
            s.rethreads losers row.threadId = s := fun s hs => if_neg (hs ▸ hl)
        refine (h.settled thread hnew).imp (fun hall r hr hc => ?_) ?_
        · rcases (hi.rows r).1 hr with ⟨s, hs, rfl⟩ | rfl
          · have hst : s.threadId = thread := by
              rw [EmailRecord.rethreads_threadId] at hc
              split at hc
              · exact absurd hc.symm hself
              · exact hc
            rw [hsame s hst]
            exact hall s hs hst
          · exact absurd hc.symm hself
        · rintro ⟨s, hs, hst, hrest⟩
          exact ⟨s, (hi.rows s).2 (.inl ⟨s, hs, hsame s hst⟩), hst, hrest⟩

/-- An arrival that landed on a new row or on the row of its id. -/
theorem BatchRows.upserted (h : BatchRows before folder mint (p :: rest) waiting t)
    {row : EmailRecord} (hu : Upserted t row t') (hset : Settled folder row)
    (hid : row.id = (mint p.2).emailId ∨ ∃ r ∈ t.emails, r.id = row.id)
    (hth : ∀ q ∈ rest, row.threadId ≠ (mint q.2).threadId)
    (hmsg : ∀ r ∈ t.emails, r.id = row.id → r.gmailMsgid ≠ none)
    (hd : ∀ q ∈ rest, (mint q.2).emailId ≠ (mint p.2).emailId) :
    BatchRows before folder mint rest waiting t' := by
  refine ⟨fun q hq r hr hc => ?_, fun q hq hc => ?_,
    fun v hv => hu.exists_of_exists (h.waiting v hv), fun r hr hneg => ?_, fun thread hnew => ?_⟩
  · have hfree := h.ids q (List.mem_cons_of_mem _ hq)
    rcases (hu.rows r).1 hr with ⟨hr, -⟩ | rfl
    · exact hfree r hr hc
    · rcases hid with hid | ⟨s, hs, hid⟩
      · exact hd q hq (hc.symm.trans hid)
      · exact hfree s hs (hid.trans hc)
  · obtain ⟨r, hr, hc⟩ := hc
    rcases (hu.rows r).1 hr with ⟨hr, -⟩ | rfl
    · exact h.threads q (List.mem_cons_of_mem _ hq) ⟨r, hr, hc⟩
    · exact hth q hq hc
  · rcases (hu.rows r).1 hr with ⟨hr, -⟩ | rfl
    · exact h.below r hr hneg
    · have := hset.2
      omega
  · refine (h.settled thread hnew).imp (fun hall r hr hc => ?_) ?_
    · rcases (hu.rows r).1 hr with ⟨hr, -⟩ | rfl
      · exact hall r hr hc
      · exact hset
    · rintro ⟨s, hs, hst, hss, hnone⟩
      exact ⟨s, (hu.rows s).2 (.inl ⟨hs, fun hc => hmsg s hs hc hnone⟩), hst, hss, hnone⟩

/-- A waiting row under its new UID. -/
theorem BatchRows.matched (h : BatchRows before folder mint (p :: rest) waiting t)
    {facts : EmailFacts} {id : EmailId} {sealed : Bytes} {waiting' : List (Identity × EmailId)}
    (hw : waiting' ⊆ waiting)
    (hrows : ∀ r, r ∈ t'.emails ↔ ∃ s ∈ t.emails, s.matched facts id sealed = r) :
    BatchRows before folder mint rest waiting' t' := by
  have hid : ∀ s : EmailRecord, (s.matched facts id sealed).id = s.id := fun s => by
    unfold EmailRecord.matched; split <;> rfl
  have hth : ∀ s : EmailRecord, (s.matched facts id sealed).threadId = s.threadId := fun s => by
    unfold EmailRecord.matched; split <;> rfl
  have hmsg : ∀ s : EmailRecord, (s.matched facts id sealed).gmailMsgid = s.gmailMsgid :=
    fun s => by unfold EmailRecord.matched; split <;> rfl
  have huid : ∀ s : EmailRecord, (s.matched facts id sealed).uid < 0 → s.uid < 0 := fun s => by
    unfold EmailRecord.matched
    split
    · intro hc
      simp only at hc
      omega
    · exact fun hc => hc
  have hset : ∀ s : EmailRecord, Settled folder s → Settled folder (s.matched facts id sealed) := by
    rintro s ⟨hf, hu⟩
    refine ⟨?_, ?_⟩
    · unfold EmailRecord.matched; split <;> exact hf
    · by_contra hc
      have := huid s (by omega)
      omega
  refine ⟨fun q hq r hr => ?_, fun q hq hc => ?_, fun v hv => ?_, fun r hr hneg => ?_,
    fun thread hnew => ?_⟩
  · obtain ⟨s, hs, rfl⟩ := (hrows r).1 hr
    rw [hid]
    exact h.ids q (List.mem_cons_of_mem _ hq) s hs
  · obtain ⟨r, hr, hc⟩ := hc
    obtain ⟨s, hs, rfl⟩ := (hrows r).1 hr
    rw [hth] at hc
    exact h.threads q (List.mem_cons_of_mem _ hq) ⟨s, hs, hc⟩
  · obtain ⟨s, hs, hv⟩ := h.waiting v (hw hv)
    exact ⟨_, (hrows _).2 ⟨s, hs, rfl⟩, (hid s).trans hv⟩
  · obtain ⟨s, hs, rfl⟩ := (hrows r).1 hr
    rw [hid]
    exact h.below s hs (huid s hneg)
  · refine (h.settled thread hnew).imp (fun hall r hr hc => ?_) ?_
    · obtain ⟨s, hs, rfl⟩ := (hrows r).1 hr
      rw [hth] at hc
      exact hset s (hall s hs hc)
    · rintro ⟨s, hs, hst, hss, hnone⟩
      exact ⟨_, (hrows _).2 ⟨s, hs, rfl⟩, (hth s).trans hst, hset s hss, (hmsg s).trans hnone⟩

/-- **What still waits may leave.** -/
theorem BatchRows.departs (h : BatchRows before folder mint rest waiting t) :
    Departs before t folder .unmatched := by
  refine ⟨fun r hr hl => h.below r hr hl.2, fun r hr hl hall => ?_⟩
  by_contra hnew
  have hno : ∀ o : EmailRecord, Leaves folder .unmatched o → ¬ Settled folder o := by
    rintro o ⟨-, hlt⟩ ⟨-, hle⟩
    simp only [Leaving.below] at hlt
    omega
  rcases h.settled r.threadId hnew with hset | ⟨o, ho, hot, hos, -⟩
  · exact hno r hl (hset r hr rfl)
  · exact hno o (hall o ho hot) hos

/-! ## One message -/

theorem popWaiting_spec (waiting : List (Identity × EmailId)) (identity : Identity) :
    (popWaiting waiting identity).2 ⊆ waiting ∧
      ∀ id, (popWaiting waiting identity).1 = some id → ∃ w ∈ waiting, w.2 = id := by
  unfold popWaiting
  cases hf : waiting.reverse.find? fun w => w.1 = identity with
  | none => exact ⟨List.Subset.refl _, fun id h => by cases h⟩
  | some w =>
    refine ⟨List.filter_subset_self _, fun id h => ?_⟩
    obtain rfl := Option.some.inj h
    exact ⟨w, List.mem_reverse.1 (List.mem_of_find?_eq_some hf), rfl⟩

/-- The loop's invariant. -/
structure BatchInv (before : Tables) (folder : MailboxId) (mint : Nat → Minted)
    (emails : List EmailFacts) (rest : List (EmailFacts × Nat)) (b : Batching) : Prop where
  sound : Sound before b.writing
  rows : BatchRows before folder mint rest b.waiting b.writing.tables
  facts : ∀ q ∈ rest, q.1 ∈ emails
  places : rest.Pairwise fun p q => p.2 ≠ q.2

section Turn

variable {emails : List EmailFacts} {b b' : Batching} {sealer : Sealer} {labels : Labels}

/-- A turn that writes nothing. -/
theorem BatchInv.skip (h : BatchInv before folder mint emails (p :: rest) b) :
    BatchInv before folder mint emails rest b :=
  ⟨h.sound, h.rows.skip (List.Subset.refl _), fun q hq => h.facts q (List.mem_cons_of_mem _ hq),
    (List.pairwise_cons.1 h.places).2⟩

/-- No later turn mints what this one minted. -/
theorem BatchInv.apart (h : BatchInv before folder mint emails (p :: rest) b)
    (hm : Minting mint emails before) : ∀ q ∈ rest,
      (mint q.2).emailId ≠ (mint p.2).emailId ∧ (mint q.2).threadId ≠ (mint p.2).threadId :=
  fun q hq => hm.apart _ _ ((List.pairwise_cons.1 h.places).1 q hq).symm

/-- **A Gmail message arrives** on a row placed under `id`. -/
theorem BatchInv.placed (h : BatchInv before folder mint emails (p :: rest) b)
    (hm : Minting mint emails before) {a : Arrival} (hfolder : a.folder = folder)
    (hgmail : p.1.gmail = some a.gmail) {id : EmailId} {kind : ChangeKind}
    {previous : Option ThreadId} {w : Writing}
    (hrow : (kind = .created ∧ previous = none ∧ id = (mint p.2).emailId) ∨
      (kind = .updated ∧ ∃ r ∈ b.writing.tables.emails, r.id = id ∧ r.gmailMsgid ≠ none ∧
        previous = if r.threadId = a.gmail.thread then none else some r.threadId))
    (hp : a.place sealer b.writing id kind previous = .ok w) :
    BatchInv before folder mint emails rest
      { b with writing := { w with ledger := w.ledger.note (.email, id) kind } } := by
  have hfresh : ∀ r ∈ b.writing.tables.emails, r.id ≠ (mint p.2).emailId :=
    h.rows.ids p List.mem_cons_self
  obtain ⟨hsound, sealed, msgid, hups⟩ := h.sound.place (hrow.imp
    (fun ⟨hk, hprev, hid⟩ => ⟨hk, hprev, fun r hr => hid ▸ hfresh r hr⟩)
    (fun ⟨hk, r, hr, hid, _, hprev⟩ => ⟨hk, r, hr, hid, hprev⟩)) hp
  refine ⟨hsound, h.rows.upserted hups ?_ ?_ (fun q hq => ?_) (fun r hr hid => ?_)
    fun q hq => (h.apart hm q hq).1, fun q hq => h.facts q (List.mem_cons_of_mem _ hq),
    (List.pairwise_cons.1 h.places).2⟩
  · exact ⟨hfolder, Int.natCast_nonneg _⟩
  · exact hrow.imp (fun ⟨_, _, hid⟩ => hid) fun ⟨_, r, hr, hid, _⟩ => ⟨r, hr, hid⟩
  · exact hm.gmail q.2 p.1 (h.facts p List.mem_cons_self) a.gmail hgmail
  · rcases hrow with ⟨-, -, hnew⟩ | ⟨-, r', hr', hid', hmsg, -⟩
    · exact absurd (hid.trans hnew) (hfresh r hr)
    · rw [EmailRecord.eq_of_id hr hr' (hid.trans hid'.symm)]
      exact hmsg

/-- **A waiting row is matched.** -/
theorem BatchInv.matched (h : BatchInv before folder mint emails (p :: rest) b) {id : EmailId}
    {sealed : Bytes} {waiting : List (Identity × EmailId)} (hw : waiting ⊆ b.waiting)
    (hid : ∃ r ∈ b.writing.tables.emails, r.id = id)
    (hr : rewrite b.writing.tables p.1 id sealed = .ok t) :
    BatchInv before folder mint emails rest
      ⟨⟨t, b.writing.ledger.note (.email, id) .updated⟩, waiting⟩ := by
  simp only [rewrite, Except.bind_eq_ok, constrained_eq_ok, pure, Except.pure,
    Except.ok.injEq] at hr
  obtain ⟨rows, hrows, rfl⟩ := hr
  have hmem : ∀ r, r ∈ rows ↔ ∃ s ∈ b.writing.tables.emails, s.matched p.1 id sealed = r :=
    fun r => Table.mem_update? hrows
  obtain ⟨hin, hat⟩ := rows_of_map b.writing.tables
    { b.writing.tables with emails := rows } id hmem
    (fun r _ => by unfold EmailRecord.matched; split <;> exact ⟨rfl, rfl⟩)
    (fun r _ hne => by rw [EmailRecord.matched, if_neg hne])
  refine ⟨?_, h.rows.matched hw hmem, fun q hq => h.facts q (List.mem_cons_of_mem _ hq),
    (List.pairwise_cons.1 h.places).2⟩
  exact h.sound.touch hid hin hat (fun _ _ _ => Iff.rfl) ⟨rfl, rfl, rfl⟩
    fun x => Ledger.items_note_email _ _ x _

/-- **A new message** joins its thread and goes in. -/
theorem BatchInv.inserted (h : BatchInv before folder mint emails (p :: rest) b)
    (hm : Minting mint emails before) {hashes : List Bytes} {hash : Option Bytes} {sealed : Bytes}
    {waiting : List (Identity × EmailId)} (hw : waiting ⊆ b.waiting)
    (hi : insert (join b.writing hashes (mint p.2).threadId).1.tables p.1 (mint p.2).emailId folder
      hash sealed (join b.writing hashes (mint p.2).threadId).2 = .ok t) :
    BatchInv before folder mint emails rest
      ⟨⟨t, (join b.writing hashes (mint p.2).threadId).1.ledger.note
        (.email, (mint p.2).emailId) .created⟩, waiting⟩ := by
  have hfree := h.rows.threads p List.mem_cons_self
  obtain ⟨hsound, losers, hins⟩ := h.sound.joinInsert hfree hi
  have hrows := h.rows.inserted hins rfl (join_thread h.sound.hashes hashes _)
    ⟨rfl, Int.natCast_nonneg _⟩ rfl (h.apart hm)
  refine ⟨hsound, ⟨hrows.ids, hrows.threads, fun v hv => hrows.waiting v (hw hv), hrows.below,
    hrows.settled⟩, fun q hq => h.facts q (List.mem_cons_of_mem _ hq),
    (List.pairwise_cons.1 h.places).2⟩

/-- **One turn of the loop.** -/
theorem BatchInv.turn (hm : Minting mint emails before)
    (h : BatchInv before folder mint emails (p :: rest) b)
    (hf : writeFacts sealer mint folder labels b p = .ok b') :
    BatchInv before folder mint emails rest b' := by
  obtain ⟨facts, n⟩ := p
  simp only [writeFacts] at hf
  split at hf
  · obtain rfl : b = b' := by simpa [pure, Except.pure] using hf
    exact h.skip
  split at hf
  · rename_i gmail hgmail
    rw [Except.bind_eq_ok] at hf
    obtain ⟨⟨w, wrote⟩, harr, hf⟩ := hf
    simp only [pure, Except.pure, Except.ok.injEq] at hf
    simp only [Arrival.write] at harr
    split at harr
    · rename_i row hheld
      obtain ⟨hrow, hmsg⟩ := Table.mem_of_find? hheld
      split at harr
      · -- The same folder holds another live UID under the id: nothing is written.
        simp only [pure, Except.pure, Except.ok.injEq, Prod.mk.injEq] at harr
        obtain ⟨rfl, rfl⟩ := harr
        subst hf
        exact h.skip
      · simp only [Except.bind_eq_ok, pure, Except.pure, Except.ok.injEq, Prod.mk.injEq] at harr
        obtain ⟨w', hplace, rfl, rfl⟩ := harr
        subst hf
        exact h.placed hm rfl hgmail (.inr ⟨rfl, row, hrow, rfl, by rw [hmsg]; simp, rfl⟩) hplace
    · simp only [Except.bind_eq_ok, pure, Except.pure, Except.ok.injEq, Prod.mk.injEq] at harr
      obtain ⟨w', hplace, rfl, rfl⟩ := harr
      subst hf
      exact h.placed hm rfl hgmail (.inl ⟨rfl, rfl, rfl⟩) hplace
  · obtain ⟨hsub, htaken⟩ := popWaiting_spec b.waiting
      (ownHash sealer facts.personal, facts.receivedAt, facts.size)
    revert hf hsub htaken
    generalize popWaiting b.waiting _ = popped
    obtain ⟨taken, waiting⟩ := popped
    intro hf hsub htaken
    cases taken with
    | none =>
      simp only [Except.bind_eq_ok, pure, Except.pure, Except.ok.injEq] at hf
      obtain ⟨sealed, -, t, hi, rfl⟩ := hf
      exact h.inserted hm hsub hi
    | some id =>
      simp only [Except.bind_eq_ok, pure, Except.pure, Except.ok.injEq] at hf
      obtain ⟨sealed, -, t, hr, rfl⟩ := hf
      obtain ⟨v, hv, hid⟩ := htaken id rfl
      exact h.matched hsub (hid ▸ h.rows.waiting v hv) hr

end Turn

/-! ## The batch -/

theorem save_unseen (t : Tables) (folder : MailboxId) (advance : Advance) :
    Unseen t (save t folder advance).1 := by
  unfold save
  split <;> exact ⟨fun _ _ _ => Iff.rfl, rfl, rfl, rfl, rfl⟩

theorem save_emails (t : Tables) (folder : MailboxId) (advance : Advance) :
    (save t folder advance).1.emails = t.emails := by
  unfold save
  split <;> rfl

theorem pinned_emails (t : Tables) (standing : Standing) :
    (pinned t standing).1.emails = t.emails := by
  unfold pinned
  split
  · rfl
  · split <;> rfl

/-! ## What a batch leaves alone -/

/-- A join touches neither memberships nor mailboxes nor progress. -/
theorem join_frame (w : Writing) (hashes : List Bytes) (generated : ThreadId) :
    (join w hashes generated).1.tables.memberships = w.tables.memberships ∧
      (join w hashes generated).1.tables.mailboxes = w.tables.mailboxes ∧
      (join w hashes generated).1.tables.sync = w.tables.sync := by
  unfold join
  simp only
  rw [points_frame]
  exact foldl_keeps (P := fun w' : Writing => w'.tables.memberships = w.tables.memberships ∧
    w'.tables.mailboxes = w.tables.mailboxes ∧ w'.tables.sync = w.tables.sync) ⟨rfl, rfl, rfl⟩
    fun loser _ w' h => h

theorem left_frame (w : Writing) (thread : ThreadId) :
    (left w thread).tables.mailboxes = w.tables.mailboxes ∧
      (left w thread).tables.sync = w.tables.sync := by
  unfold left
  split <;> exact ⟨rfl, rfl⟩

theorem place_frame {a : Arrival} {sealer : Sealer} {w w' : Writing} {id : EmailId}
    {kind : ChangeKind} {previous : Option ThreadId}
    (h : a.place sealer w id kind previous = .ok w') :
    w'.tables.mailboxes = w.tables.mailboxes ∧ w'.tables.sync = w.tables.sync := by
  simp only [Arrival.place, upsertEmail, Except.bind_eq_ok, constrained_eq_ok, pure, Except.pure,
    Except.ok.injEq] at h
  obtain ⟨_, -, _, ⟨_, -, rfl⟩, rfl⟩ := h
  simp only [replaceMemberships]
  have hclaimed : ∀ thread, (if kind = .created ∨ previous.isSome then claim w thread
        else w).tables.mailboxes = w.tables.mailboxes ∧
      (if kind = .created ∨ previous.isSome then claim w thread
        else w).tables.sync = w.tables.sync := fun thread => by
    split <;> exact ⟨rfl, rfl⟩
  cases previous with
  | none => exact hclaimed _
  | some previous =>
    obtain ⟨hmailboxes, hsync⟩ := hclaimed a.gmail.thread
    exact ⟨(left_frame _ previous).1.trans hmailboxes, (left_frame _ previous).2.trans hsync⟩

/-- The loop writes rows, their memberships and their threads. -/
theorem writeFacts_frame {sealer : Sealer} {labels : Labels} {b b' : Batching}
    (h : writeFacts sealer mint folder labels b p = .ok b') :
    b'.writing.tables.mailboxes = b.writing.tables.mailboxes ∧
      b'.writing.tables.sync = b.writing.tables.sync := by
  simp only [writeFacts] at h
  split at h
  · obtain rfl := Except.ok.inj h
    exact ⟨rfl, rfl⟩
  split at h
  · rename_i gmail _
    rw [Except.bind_eq_ok] at h
    obtain ⟨⟨w, wrote⟩, harr, h⟩ := h
    have hw : w.tables.mailboxes = b.writing.tables.mailboxes ∧
        w.tables.sync = b.writing.tables.sync := by
      simp only [Arrival.write] at harr
      split at harr
      · split at harr
        · obtain ⟨rfl, -⟩ := Prod.mk.inj (Except.ok.inj harr)
          exact ⟨rfl, rfl⟩
        · simp only [Except.bind_eq_ok, pure, Except.pure, Except.ok.injEq, Prod.mk.injEq] at harr
          obtain ⟨_, hplace, rfl, -⟩ := harr
          exact place_frame hplace
      · simp only [Except.bind_eq_ok, pure, Except.pure, Except.ok.injEq, Prod.mk.injEq] at harr
        obtain ⟨_, hplace, rfl, -⟩ := harr
        exact place_frame hplace
    obtain rfl := Except.ok.inj h
    cases wrote <;> exact hw
  · split at h
    · simp only [Except.bind_eq_ok, pure, Except.pure, Except.ok.injEq] at h
      obtain ⟨_, -, _, hi, rfl⟩ := h
      obtain ⟨-, -, -, hframe⟩ := insert_spec hi
      rw [hframe]
      exact (join_frame _ _ _).2
    · simp only [rewrite, Except.bind_eq_ok, pure, Except.pure, Except.ok.injEq] at h
      obtain ⟨_, -, _, ⟨_, -, rfl⟩, rfl⟩ := h
      exact ⟨rfl, rfl⟩

/-- The stages of a batch that went through: nothing was read where the folder does not stand,
nothing is logged where the loop noted nothing, and else the ledger goes ahead of what leaves. -/
theorem writeBatch_stages {sealer : Sealer} {batch : Batch} {state : Option Nat}
    (hw : writeBatch sealer mint before batch = .ok (t, state)) :
    (t = (pinned before ⟨batch.folder, batch.uidValidity⟩).1 ∧ state = none) ∨
      state.isSome ∧ ∃ b, batch.emails.zipIdx.foldlM (writeFacts sealer mint batch.folder
          (Labels.read (pinned before ⟨batch.folder, batch.uidValidity⟩).1 batch.folder))
          ⟨⟨(pinned before ⟨batch.folder, batch.uidValidity⟩).1, Table.empty⟩,
            unmatched (pinned before ⟨batch.folder, batch.uidValidity⟩).1 batch.folder⟩ = .ok b ∧
        let saved := save b.writing.tables batch.folder batch.advance
        (t = saved.1 ∧ b.writing.ledger.isEmpty ∧ saved.2 = false) ∨
          ∃ t₂ t₃, b.writing.ledger.write (nextSequence saved.1).1 (nextSequence saved.1).2 = .ok t₂ ∧
            log (if saved.2 then leave t₂ batch.folder (nextSequence saved.1).2 .unmatched else t₂)
              (nextSequence saved.1).2 (.mailbox, batch.folder) .updated = .ok t₃ ∧
            t = prune t₃ := by
  unfold writeBatch at hw
  revert hw
  generalize pinned before ⟨batch.folder, batch.uidValidity⟩ = checked
  obtain ⟨t₀, stands⟩ := checked
  intro hw
  simp only at hw ⊢
  split at hw
  · simp only [pure, Except.pure, Except.ok.injEq, Prod.mk.injEq] at hw
    exact .inl ⟨hw.1.symm, hw.2.symm⟩
  rw [Except.bind_eq_ok] at hw
  obtain ⟨b, hloop, hw⟩ := hw
  suffices h : state.isSome ∧ _ from .inr ⟨h.1, b, hloop, h.2⟩
  revert hw
  generalize save b.writing.tables batch.folder batch.advance = saved
  obtain ⟨t₁, finished⟩ := saved
  intro hw
  simp only at hw ⊢
  split at hw
  · rename_i hempty
    simp only [pure, Except.pure, Except.ok.injEq, Prod.mk.injEq] at hw
    simp only [Bool.and_eq_true, Bool.not_eq_true'] at hempty
    exact ⟨by rw [← hw.2]; rfl, .inl ⟨hw.1.symm, hempty⟩⟩
  · simp only [Except.bind_eq_ok, pure, Except.pure, Except.ok.injEq, Prod.mk.injEq] at hw
    obtain ⟨t₂, hledger, t₃, hlog, ht, hstate⟩ := hw
    exact ⟨by rw [← hstate]; rfl, .inr ⟨t₂, t₃, hledger, hlog, ht.symm⟩⟩

/-- The loop starts on the rows as they stood. -/
theorem BatchInv.start (hi : Inv before) {emails : List EmailFacts} (hm : Minting mint emails before)
    (standing : Standing) :
    BatchInv before folder mint emails emails.zipIdx
      ⟨⟨(pinned before standing).1, Table.empty⟩, unmatched (pinned before standing).1 folder⟩ := by
  have hemails := pinned_emails before standing
  have hrows : BatchRows before folder mint emails.zipIdx (unmatched before folder) before :=
    .start hm
  refine ⟨(Sound.start hi).unseen (pinned_unseen before standing), ?_, fun q hq => ?_, ?_⟩
  · simp only [unmatched, hemails] at hrows ⊢
    exact ⟨fun q hq => by rw [hemails]; exact hrows.ids q hq,
      fun q hq => by rw [Holding, hemails]; exact hrows.threads q hq,
      fun v hv => by rw [hemails]; exact hrows.waiting v hv, by rw [hemails]; exact hrows.below,
      fun thread => by rw [hemails]; exact hrows.settled thread⟩
  · exact List.fst_mem_of_mem_zipIdx hq
  · rw [← List.pairwise_map (f := Prod.snd), List.zipIdx_map_snd]
    exact List.nodup_range'

/-- **What leaves with the last batch** leaves under the batch's sequence, the ledger before it. -/
theorem BatchInv.left {batch : Batch} {b : Batching} (hi : Inv before)
    (hend : BatchInv before batch.folder mint batch.emails [] b) (finished : Bool) {t₂ : Tables}
    (hledger : b.writing.ledger.write
      (nextSequence (save b.writing.tables batch.folder batch.advance).1).1
      (nextSequence (save b.writing.tables batch.folder batch.advance).1).2 = .ok t₂) :
    Logged before (if finished then leave t₂ batch.folder
        (nextSequence (save b.writing.tables batch.folder batch.advance).1).2 .unmatched else t₂) ∧
      (nextSequence (save b.writing.tables batch.folder batch.advance).1).2 = t₂.sequence ∧
      t₂.emails = b.writing.tables.emails := by
  have hsaved := save_unseen b.writing.tables batch.folder batch.advance
  have hrows := save_emails b.writing.tables batch.folder batch.advance
  revert hledger hsaved hrows
  generalize (save b.writing.tables batch.folder batch.advance).1 = t₁
  intro hledger hsaved hrows
  have hsound : Sound before ⟨t₁, b.writing.ledger⟩ := hend.sound.unseen hsaved
  have hopened := hsound.opened hi.below hledger
  have hseq : (nextSequence t₁).2 = t₂.sequence := by
    rw [(Ledger.logsUnder_write hledger).frame]
    rfl
  have hem : t₂.emails = b.writing.tables.emails := by
    rw [(Ledger.logsUnder_write hledger).frame]
    exact hrows
  refine ⟨?_, hseq, hem⟩
  cases finished with
  | false => exact hopened
  | true =>
    -- What the first sync left without a match leaves.
    have hdeparts : Departs before t₂ batch.folder .unmatched := by
      have := hend.rows.departs
      exact ⟨by rw [hem]; exact this.emails, by rw [hem]; exact this.threads⟩
    rw [if_pos rfl, hseq]
    exact hopened.leave hdeparts

/-- **A batch tells what it did.** -/
theorem writeBatch_outcome {sealer : Sealer} {batch : Batch} {state : Option Nat}
    (hi : Inv before) (hm : Minting mint batch.emails before)
    (hw : writeBatch sealer mint before batch = .ok (t, state)) : Outcome before t := by
  have hstart : BatchInv before batch.folder mint batch.emails _ _ :=
    .start hi hm ⟨batch.folder, batch.uidValidity⟩
  rcases writeBatch_stages hw with ⟨rfl, -⟩ | ⟨-, b, hloop, hstages⟩
  · exact .quiet hi (pinned_unseen before _)
  have hend := foldlM_rest (fun p rest b b' h hf => h.turn hm hf) hstart hloop
  rcases hstages with ⟨rfl, hempty, -⟩ | ⟨t₂, t₃, hledger, hlog, rfl⟩
  · exact (hend.sound.unseen (save_unseen _ _ _)).quiet hi hempty
  · obtain ⟨hlogged, hseq, -⟩ := hend.left hi
      (save b.writing.tables batch.folder batch.advance).2 hledger
    refine hlogged.closed ?_ hlog
    split
    · rw [(leave_spec t₂ batch.folder _ .unmatched).frame]
      exact hseq
    · exact hseq

end Huliho
