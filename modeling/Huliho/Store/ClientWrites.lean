import Huliho.Store.Batches

/-!
# The other writes on rows tell what they did

`Email/set`, the flags, removals and parks of a refresh, and the previews: each is a run of row
operations that keep `Sound`, closed by its ledger. The order of the runs does not matter to the
proof; every loop is one `foldl_keeps` or `foldlM_keeps`.
-/

namespace Huliho

variable {before t : Tables} {w w' : Writing}

/-! ## Keywords, labels and stars -/

theorem mem_rowAtPlace {id : EmailId} {folder : MailboxId} {uid : Nat} {r : EmailRecord}
    (h : rowAtPlace t id folder uid = some r) :
    r ∈ t.emails ∧ r.id = id ∧ r.folderId = folder ∧ r.uid = uid := Table.mem_of_find? h

theorem Sound.noteAll (h : Sound before w) (mailboxes : List MailboxId) :
    Sound before { w with ledger := noteAll w.ledger mailboxes } :=
  h.relist fun x => Ledger.items_noteAll _ _ x

theorem Sound.keywordChange (h : Sound before w) {change : KeywordChange}
    (ha : change.apply w = some w') : Sound before w' := by
  unfold KeywordChange.apply at ha
  split at ha
  · cases ha
  · rename_i r hr
    obtain ⟨hmem, hid, -⟩ := mem_rowAtPlace hr
    split at ha
    · obtain rfl := Option.some.inj ha
      exact h
    · obtain rfl := Option.some.inj ha
      exact (h.tagged _ ⟨r, hmem, hid⟩).noteAll _

theorem Sound.star (h : Sound before w) (id : EmailId) (folder : MailboxId) :
    Sound before (star w id folder) := by
  unfold Huliho.star
  split
  · rename_i starred r _ hr
    simp only
    split
    · exact h
    · exact h.memberships r.receivedAt _ _ ⟨r, rowOf_eq_some.1 hr⟩
  · exact h

theorem Sound.flagged (h : Sound before w) (id : EmailId) (on : Bool) :
    Sound before (flagged w id on) := by
  unfold Huliho.flagged
  split
  · exact h
  · rename_i r hr
    split
    · exact h
    · exact h.tagged _ ⟨r, rowOf_eq_some.1 hr⟩

theorem Sound.labelChange (h : Sound before w) {change : LabelChange}
    (hr : Huliho.relabel w change = some w') : Sound before w' := by
  unfold Huliho.relabel at hr
  split at hr
  · cases hr
  · rename_i r hat
    obtain ⟨hmem, hid, -⟩ := mem_rowAtPlace hat
    have hm := h.memberships r.receivedAt (currentMemberships w.tables change.id)
      (((currentMemberships w.tables change.id).filter fun m => m ∉ change.remove) ++
        change.add).dedup ⟨r, hmem, hid⟩
    obtain rfl := Option.some.inj hr
    split
    · exact hm
    · split
      · exact hm.flagged _ _
      · split
        · exact hm.flagged _ _
        · exact hm

/-! ## Rows that leave and rows that move -/

/-- A row whose message left. -/
theorem Sound.leaveRow (h : Sound before w) (gone : GoneRow) : Sound before (leaveRow w gone) := by
  unfold Huliho.leaveRow
  split
  · exact h
  · rename_i r hat
    obtain ⟨hmem, hid, hfolder, huid⟩ := mem_rowAtPlace hat
    have hr := h.remove hmem ((Huliho.noteAll w.ledger (currentMemberships w.tables gone.id)).note
        (.email, gone.id) .destroyed)
      fun x => by rw [Ledger.items_note_email, Ledger.items_noteAll, Ledger.items_noteAll, hid]
    simp only [withoutEmail, hid, hfolder, huid] at hr
    exact hr

/-- An `UPDATE` of where rows lie. -/
theorem Sound.relocate (h : Sound before w) {f : EmailRecord → EmailRecord}
    {emails : Table EmailRecord.Apart} (hu : w.tables.emails.update? f = some emails)
    (hf : ∀ r, (f r).id = r.id ∧ (f r).threadId = r.threadId ∧ (f r).keywords = r.keywords) :
    Sound before { w with tables := { w.tables with emails } } :=
  h.unseen (Unseen.of_map (fun _ => Table.mem_update? hu) hf rfl)

theorem Sound.lose (h : Sound before w) {parks : Bool} {lost : GoneRow}
    (hl : lose parks w lost = .ok w') : Sound before w' := by
  unfold Huliho.lose at hl
  split at hl
  · simp only [Except.bind_eq_ok, constrained_eq_ok, pure, Except.pure, Except.ok.injEq] at hl
    obtain ⟨emails, hu, rfl⟩ := hl
    refine h.relocate hu fun r => ?_
    unfold EmailRecord.parkRow
    split <;> exact ⟨rfl, rfl, rfl⟩
  · obtain rfl : Huliho.leaveRow w lost = w' := by simpa [pure, Except.pure] using hl
    exact h.leaveRow lost

/-- A row noted as updated with the two folders of its move. -/
theorem Sound.arrived (h : Sound before w) {id : EmailId} (hid : ∃ r ∈ w.tables.emails, r.id = id)
    (source target : MailboxId) : Sound before { w with
      ledger := ((w.ledger.note (.mailbox, source) .updated).note (.mailbox, target) .updated).note
        (.email, id) .updated } := by
  have hnoted : Sound before { w with
      ledger := (w.ledger.note (.mailbox, source) .updated).note (.mailbox, target) .updated } :=
    h.relist fun x => (Ledger.items_note_mailbox _ _ _ _).trans (Ledger.items_note_mailbox _ _ _ _)
  exact hnoted.note_updated hid

theorem memberships_emails (w : Writing) (id : EmailId) (receivedAt : Int)
    (current wanted : List MailboxId) :
    (memberships w id receivedAt current wanted).tables.emails = w.tables.emails := by
  unfold memberships
  split <;> rfl

theorem Sound.moved (h : Sound before w) {parks : Bool} {change : MoveChange} {placed : Placed}
    (hm : moved parks w change = .ok (w', placed)) : Sound before w' := by
  unfold Huliho.moved at hm
  split at hm
  · simp only [pure, Except.pure, Except.ok.injEq, Prod.mk.injEq] at hm
    obtain ⟨rfl, -⟩ := hm
    exact h
  rename_i r hat
  obtain ⟨hmem, hid, -⟩ := mem_rowAtPlace hat
  have hpinned := h.unseen (pinned_unseen w.tables ⟨change.toFolder, change.uidValidity⟩)
  simp only at hm
  split at hm
  · simp only [Except.bind_eq_ok, pure, Except.pure, Except.ok.injEq, Prod.mk.injEq] at hm
    obtain ⟨w₁, hl, rfl, -⟩ := hm
    exact hpinned.lose hl
  · simp only [Except.bind_eq_ok, constrained_eq_ok, pure, Except.pure, Except.ok.injEq,
      Prod.mk.injEq] at hm
    obtain ⟨emails, hu, rfl, -⟩ := hm
    have hmoved := hpinned.relocate hu fun r => by
      unfold EmailRecord.moveTo
      split <;> exact ⟨rfl, rfl, rfl⟩
    -- The row is where it was under its id, so its memberships may be replaced.
    have hexists : ∃ s ∈ emails, s.id = change.id := by
      have hem : (pinned w.tables ⟨change.toFolder, change.uidValidity⟩).1.emails =
          w.tables.emails := by
        unfold pinned
        split
        · rfl
        · split <;> rfl
      refine ⟨r.moveTo change, (Table.mem_update? hu).2 ⟨r, by rw [hem]; exact hmem, rfl⟩, ?_⟩
      unfold EmailRecord.moveTo
      split <;> exact hid
    have hplaced := fun current wanted => hmoved.memberships r.receivedAt current wanted hexists
    refine (hplaced _ _).arrived ?_ _ _
    rw [memberships_emails]
    exact hexists

/-! ## Drafts -/

/-- The generator answers a thread of its own for each draft. -/
structure Generating (generate : EmailId → ThreadId) (drafts : List DraftRow) (t : Tables) :
    Prop where
  threads : ∀ d ∈ drafts, ¬ Holding t (generate d.id)
  apart : drafts.Pairwise fun d e => generate d.id ≠ generate e.id

/-- **One draft** goes in as a new row, or is left to a pass. -/
theorem Sound.draft (h : Sound before w) {generate : EmailId → ThreadId} {d : DraftRow}
    {rest : List DraftRow} (hg : Generating generate (d :: rest) w.tables) {wentIn : Bool}
    (hd : draft (generate d.id) w d = .ok (w', wentIn)) :
    Sound before w' ∧ Generating generate rest w'.tables := by
  obtain ⟨hd₁, hrest⟩ := List.forall_mem_cons.1 hg.threads
  obtain ⟨hne, happart⟩ := List.pairwise_cons.1 hg.apart
  have hu := pinned_unseen w.tables ⟨d.folder, d.uidValidity⟩
  have hpinned := h.unseen hu
  have hholding : ∀ thread, Holding (pinned w.tables ⟨d.folder, d.uidValidity⟩).1 thread ↔
      Holding w.tables thread := fun thread => by simp only [holding_iff, hu.emails]
  unfold Huliho.draft at hd
  simp only at hd
  split at hd
  · simp only [pure, Except.pure, Except.ok.injEq, Prod.mk.injEq] at hd
    obtain ⟨rfl, -⟩ := hd
    exact ⟨hpinned, fun e he => by rw [hholding]; exact hrest e he, happart⟩
  · simp only [Except.bind_eq_ok, pure, Except.pure, Except.ok.injEq, Prod.mk.injEq] at hd
    obtain ⟨t, hi, rfl, -⟩ := hd
    have hfree := (hholding (generate d.id)).not.2 hd₁
    have hthread := join_thread hpinned.hashes d.named (generate d.id)
    obtain ⟨hsound, losers, hins⟩ := hpinned.joinInsert hfree hi
    refine ⟨hsound.relist fun x => Ledger.items_note_mailbox _ _ x _, fun e he hc => ?_, happart⟩
    rcases hins.holding_iff.1 hc with hc | ⟨-, hc⟩
    · rcases hthread with hold | hgen
      · refine hrest e he ((hholding _).1 ?_)
        rw [hc]
        exact hold
      · exact hne e he (hgen.symm.trans hc.symm)
    · exact hrest e he ((hholding _).1 hc)

/-! ## One `Email/set` -/

theorem Sound.run {generate : EmailId → ThreadId} {set : SetWrite} {s : Setting} (hi : Inv before)
    (hg : Generating generate set.drafts before) (hr : set.run generate before = .ok s) :
    Sound before s.writing := by
  simp only [SetWrite.run, Except.bind_eq_ok, pure, Except.pure, Except.ok.injEq] at hr
  obtain ⟨s₁, hdrafts, s₂, hmoves, w, hlost, rfl⟩ := hr
  have h₁ : Sound before s₁.writing := by
    refine (foldlM_rest (P := fun rest (s : Setting) => Sound before s.writing ∧
      Generating generate rest s.writing.tables) (fun d rest s s' h hs => ?_)
      ⟨Sound.start hi, hg⟩ hdrafts).1
    simp only [Setting.draft, Except.bind_eq_ok, pure, Except.pure, Except.ok.injEq] at hs
    obtain ⟨⟨w, wentIn⟩, hd, rfl⟩ := hs
    exact h.1.draft h.2 hd
  have h₂ : Sound before (set.keywords.foldl Setting.keywords s₁).writing := by
    refine foldl_keeps (P := fun s : Setting => Sound before s.writing) h₁ fun change _ s h => ?_
    unfold Setting.keywords
    split
    · rename_i w' ha
      exact (h.keywordChange ha).star _ _
    · exact h
  have h₃ : Sound before
      (set.labels.foldl Setting.labels (set.keywords.foldl Setting.keywords s₁)).writing := by
    refine foldl_keeps (P := fun s : Setting => Sound before s.writing) h₂ fun change _ s h => ?_
    unfold Setting.labels
    split
    · rename_i w' hl
      exact h.labelChange hl
    · exact h
  have h₄ : Sound before s₂.writing := by
    refine foldlM_keeps (P := fun s : Setting => Sound before s.writing) h₃
      (fun change _ s s' h hs => ?_) hmoves
    simp only [Setting.moved, Except.bind_eq_ok, pure, Except.pure, Except.ok.injEq] at hs
    obtain ⟨⟨w, placed⟩, hm, rfl⟩ := hs
    have := h.moved hm
    cases placed <;> exact this
  have h₅ : Sound before (set.gone.foldl Huliho.leaveRow s₂.writing) :=
    foldl_keeps h₄ fun gone _ w h => h.leaveRow gone
  exact foldlM_keeps h₅ (fun lost _ w w' h hl => h.lose hl) hlost

/-- **One `Email/set` tells what it did.** -/
theorem writeSet_outcome {generate : EmailId → ThreadId} {set : SetWrite} {answer : SetWritten}
    (hi : Inv before) (hg : Generating generate set.drafts before)
    (hw : writeSet generate before set = .ok (t, answer)) : Outcome before t := by
  simp only [writeSet, Except.bind_eq_ok, pure, Except.pure] at hw
  obtain ⟨s, hr, hw⟩ := hw
  have hsound := Sound.run hi hg hr
  split at hw
  · rename_i hempty
    simp only [Except.bind_eq_ok, Except.ok.injEq] at hw
    obtain ⟨_, rfl, hw⟩ := hw
    obtain ⟨rfl, -⟩ := Prod.mk.inj hw
    exact hsound.quiet hi hempty
  · rename_i hne
    simp only [Except.bind_eq_ok, Except.ok.injEq] at hw
    obtain ⟨t₁, hl, _, rfl, hw⟩ := hw
    obtain ⟨rfl, -⟩ := Prod.mk.inj hw
    exact hsound.written hi.below hne hl

/-! ## A refresh -/

/-- What ends a write on one folder. -/
theorem Sound.close (h : Sound before w) (hi : Inv before) {standing : Standing} {state : Nat}
    (hc : close w standing = .ok (t, state)) : Outcome before t := by
  unfold Huliho.close at hc
  split at hc
  · rename_i hempty
    simp only [pure, Except.pure, Except.ok.injEq, Prod.mk.injEq] at hc
    obtain ⟨rfl, -⟩ := hc
    exact h.quiet hi hempty
  · simp only [Except.bind_eq_ok, pure, Except.pure, Except.ok.injEq, Prod.mk.injEq] at hc
    obtain ⟨t₁, hl, t₂, hlog, rfl, -⟩ := hc
    refine (h.opened hi.below hl).closed ?_ hlog
    rw [(Ledger.logsUnder_write hl).frame]
    rfl

theorem Sound.applyLabels (h : Sound before w) (folder : MailboxId) (labels : Labels)
    (change : FlagChange) : Sound before (applyLabels folder labels w change) := by
  unfold Huliho.applyLabels
  split
  · rename_i found id receivedAt _ hat
    refine h.relabel labels _ ?_
    obtain ⟨r, hr, hid⟩ := Option.map_eq_some_iff.1 hat
    exact ⟨r, (Table.mem_of_find? hr).1, (Prod.mk.inj hid).1⟩
  · exact h

theorem Sound.applyKeywords (h : Sound before w) (folder : MailboxId) (change : FlagChange) :
    Sound before (applyKeywords folder w change) := by
  unfold Huliho.applyKeywords
  simp only
  split
  · rename_i r hr
    obtain ⟨hmem, hfolder, huid, -⟩ := Table.mem_of_find? hr
    have hrows : ∀ s, s ∈ (w.tables.emails.revise
        (EmailRecord.flag folder change.uid change.keywords)
        (EmailRecord.flag_apart _ _ _)) ↔
        ∃ r ∈ w.tables.emails, r.flag folder change.uid change.keywords = s :=
      fun s => Table.mem_revise _
    obtain ⟨hin, hat⟩ := rows_of_map w.tables ({ w.tables with
        emails := w.tables.emails.revise (EmailRecord.flag folder change.uid change.keywords)
          (EmailRecord.flag_apart _ _ _) }) r.id hrows
      (fun s _ => by unfold EmailRecord.flag; split <;> exact ⟨rfl, rfl⟩)
      (fun s hs hne => by
        rw [EmailRecord.flag, if_neg]
        rintro ⟨hf, hu⟩
        exact hne (congrArg EmailRecord.id
          (EmailRecord.eq_of_uid hs hmem (hf.trans hfolder.symm) (hu.trans huid.symm))))
    exact h.touch ⟨r, hmem, rfl⟩ hin hat (fun _ _ _ => Iff.rfl) ⟨rfl, rfl, rfl⟩
      fun x => Ledger.items_note_email _ _ x _
  · exact h

/-- The keywords and the labels of one message. -/
theorem Sound.applyFlag (h : Sound before w) (folder : MailboxId) (labels : Labels)
    (change : FlagChange) : Sound before (applyFlag folder labels w change) :=
  (h.applyKeywords folder change).applyLabels folder labels change

/-- The row of one message that left. -/
theorem Sound.removeUid (h : Sound before w) (folder : MailboxId) (uid : Nat) :
    Sound before (removeUid folder w uid) := by
  unfold Huliho.removeUid
  split
  · exact h
  · rename_i r hr
    obtain ⟨hmem, hfolder, huid⟩ := Table.mem_of_find? hr
    have hdelete : w.tables.emails.delete (fun r => r.folderId = folder ∧ r.uid = uid) =
        w.tables.emails.delete fun s => s.id = r.id ∧ s.folderId = r.folderId ∧ s.uid = r.uid := by
      refine Table.delete_congr fun s hs => ⟨fun ⟨hf, hu⟩ => ?_, fun ⟨_, hf, hu⟩ => ?_⟩
      · rw [EmailRecord.eq_of_uid hs hmem (hf.trans hfolder.symm) (hu.trans huid.symm)]
        exact ⟨rfl, rfl, rfl⟩
      · exact ⟨hf.trans hfolder, hu.trans huid⟩
    have hleft := h.remove hmem (w.ledger.note (.email, r.id) .destroyed)
      fun x => Ledger.items_note_email _ _ x _
    rw [withoutEmail, ← hdelete] at hleft
    exact hleft

theorem applyFlags_outcome {standing : Standing} {changes : List FlagChange} {state : Option Nat}
    (hi : Inv before) (hw : applyFlags before standing changes = .ok (t, state)) :
    Outcome before t := by
  have hu := pinned_unseen before standing
  simp only [applyFlags] at hw
  split at hw
  · obtain ⟨rfl, -⟩ := Prod.mk.inj (Except.ok.inj hw)
    exact .quiet hi hu
  · rw [Except.bind_eq_ok] at hw
    obtain ⟨⟨t', s⟩, hclose, hw⟩ := hw
    obtain ⟨rfl, -⟩ := Prod.mk.inj (Except.ok.inj hw)
    have hend := foldl_keeps (l := changes) ((Sound.start hi).unseen hu) fun change _ w h =>
      h.applyFlag standing.folder (Labels.read (pinned before standing).1 standing.folder) change
    exact hend.close hi hclose

theorem removeUids_outcome {standing : Standing} {uids : List Nat} {state : Option Nat}
    (hi : Inv before) (hw : removeUids before standing uids = .ok (t, state)) :
    Outcome before t := by
  have hu := pinned_unseen before standing
  simp only [removeUids] at hw
  split at hw
  · obtain ⟨rfl, -⟩ := Prod.mk.inj (Except.ok.inj hw)
    exact .quiet hi hu
  · rw [Except.bind_eq_ok] at hw
    obtain ⟨⟨t', s⟩, hclose, hw⟩ := hw
    obtain ⟨rfl, -⟩ := Prod.mk.inj (Except.ok.inj hw)
    have hend := foldl_keeps (l := uids) ((Sound.start hi).unseen hu) fun uid _ w h =>
      h.removeUid standing.folder uid
    exact hend.close hi hclose

/-- A removal that noted anything took a row away. -/
theorem removes_row (before : Tables) (folder : MailboxId) (uids : List Nat) :
    let w := uids.foldl (removeUid folder) ⟨before, Table.empty⟩
    (∀ r ∈ w.tables.emails, r ∈ before.emails) ∧
      (w.ledger.isEmpty ∨ ∃ r ∈ before.emails, r ∉ w.tables.emails) := by
  refine foldl_keeps (P := fun w : Writing => (∀ r ∈ w.tables.emails, r ∈ before.emails) ∧
    (w.ledger.isEmpty ∨ ∃ r ∈ before.emails, r ∉ w.tables.emails)) ⟨fun _ h => h, .inl rfl⟩ ?_
  rintro uid - w ⟨hsub, hrow⟩
  unfold removeUid
  split
  · exact ⟨hsub, hrow⟩
  · rename_i r hr
    obtain ⟨hmem, hat⟩ := Table.mem_of_find? hr
    simp only [left_emails, Table.mem_delete]
    exact ⟨fun s hs => hsub s hs.1, .inr ⟨r, hsub r hmem, fun hc => hc.2 hat⟩⟩

/-- Rows that are gone show. -/
theorem view_ne_of_gone (before t : Tables) (hsub : ∀ r ∈ t.emails, r ∈ before.emails)
    (hrow : ∃ r ∈ before.emails, r ∉ t.emails) :
    ∃ x, view t x ≠ view before x := by
  obtain ⟨r, hr, hgone⟩ := hrow
  refine ⟨.email r.id, fun hc => ?_⟩
  have hsome : (view t (.email r.id)).isSome := by
    rw [hc]
    exact view_email_isSome.2 ⟨r, hr, rfl⟩
  obtain ⟨s, hs, hid⟩ := view_email_isSome.1 hsome
  rw [EmailRecord.eq_of_id (hsub s hs) hr hid] at hs
  exact hgone hs

/-- **A removal nobody sees moves no counter.** -/
theorem removeUids_counter {standing : Standing} {uids : List Nat} {state : Option Nat}
    (hw : removeUids before standing uids = .ok (t, state))
    (hv : ∀ x, view t x = view before x) : t.sequence = before.sequence := by
  have hu := pinned_unseen before standing
  simp only [removeUids] at hw
  split at hw
  · obtain ⟨rfl, -⟩ := Prod.mk.inj (Except.ok.inj hw)
    exact hu.sequence
  · rw [Except.bind_eq_ok] at hw
    obtain ⟨⟨t', s⟩, hclose, hw⟩ := hw
    obtain ⟨rfl, -⟩ := Prod.mk.inj (Except.ok.inj hw)
    obtain ⟨hsub, hrow⟩ := removes_row (pinned before standing).1 standing.folder uids
    have hframe := foldl_keeps (l := uids) (f := removeUid standing.folder)
      (b := ⟨(pinned before standing).1, Table.empty⟩)
      (P := fun w : Writing => w.tables.sequence = before.sequence) hu.sequence
      fun uid _ w h => by
        unfold removeUid
        split
        · exact h
        · rcases left_cases _ _ with ⟨-, heq⟩ | ⟨-, heq⟩ <;> rw [heq] <;> exact h
    unfold Huliho.close at hclose
    split at hclose
    · obtain ⟨rfl, -⟩ := Prod.mk.inj (Except.ok.inj hclose)
      exact hframe
    · rename_i hne
      simp only [Except.bind_eq_ok, pure, Except.pure, Except.ok.injEq, Prod.mk.injEq] at hclose
      obtain ⟨t₁, hl, t₂, hlog, rfl, -⟩ := hclose
      have hemails : (prune t₂).emails = (uids.foldl (removeUid standing.folder)
          ⟨(pinned before standing).1, Table.empty⟩).tables.emails := by
        rw [prune_frame, log_frame hlog, (Ledger.logsUnder_write hl).frame]
        rfl
      obtain ⟨x, hx⟩ := view_ne_of_gone (pinned before standing).1 (prune t₂)
        (by rw [hemails]; exact hsub) (by rw [hemails]; exact hrow.resolve_left hne)
      exact absurd ((hv x).trans (hu.view x).symm) hx

/-- Parking moves rows where no client looks. -/
theorem parks_unseen {folder : MailboxId} {uids : List Nat}
    (hp : uids.foldlM (fun t uid => do
      let emails ← constrained (t.emails.update? (EmailRecord.park folder uid))
      pure { t with emails }) before = .ok t) : Unseen before t := by
  refine foldlM_keeps (P := fun t => Unseen before t) .refl (fun uid _ t t' h ht => ?_) hp
  simp only [Except.bind_eq_ok, constrained_eq_ok, pure, Except.pure, Except.ok.injEq] at ht
  obtain ⟨emails, hu, rfl⟩ := ht
  refine h.trans (Unseen.of_map (f := EmailRecord.park folder uid)
    (fun _ => Table.mem_update? hu) (fun r => ?_) rfl)
  unfold EmailRecord.park
  split <;> exact ⟨rfl, rfl, rfl⟩

theorem parkUids_unseen {standing : Standing} {uids : List Nat} {answer : Option Unit}
    (hw : parkUids before standing uids = .ok (t, answer)) : Unseen before t := by
  have hu := pinned_unseen before standing
  simp only [parkUids] at hw
  split at hw
  · obtain ⟨rfl, -⟩ := Prod.mk.inj (Except.ok.inj hw)
    exact hu
  · rw [Except.bind_eq_ok] at hw
    obtain ⟨t₁, hp, hw⟩ := hw
    obtain ⟨rfl, -⟩ := Prod.mk.inj (Except.ok.inj hw)
    exact hu.trans (parks_unseen hp)

theorem advance_unseen (t : Tables) (standing : Standing) (synced : Synced) :
    Unseen t (advance t standing synced) := by
  have hu := pinned_unseen t standing
  simp only [advance]
  split
  · exact hu
  · exact hu.trans ⟨fun _ _ _ => Iff.rfl, rfl, rfl, rfl, rfl⟩

/-! ## Previews -/

theorem savePreviews_outcome
    {preview : EmailId → String → Bytes → Option (Except StoreError Bytes)}
    {previews : List (EmailId × String)} {state : Nat} (hi : Inv before)
    (hw : savePreviews preview before previews = .ok (t, state)) : Outcome before t := by
  unfold savePreviews at hw
  rw [Except.bind_eq_ok] at hw
  obtain ⟨w, hloop, hw⟩ := hw
  have hsound : Sound before w := by
    refine foldlM_keeps (Sound.start hi) (fun saved _ w w' h hs => ?_) hloop
    unfold savePreview at hs
    split at hs
    · obtain rfl : w = w' := by simpa [pure, Except.pure] using hs
      exact h
    · rename_i resealed hopened
      simp only [Except.bind_eq_ok, pure, Except.pure, Except.ok.injEq] at hs
      obtain ⟨sealed, -, rfl⟩ := hs
      obtain ⟨r, hr, -⟩ := Option.bind_eq_some_iff.1 hopened
      have hu : Unseen w.tables { w.tables with
          emails := w.tables.emails.revise (EmailRecord.reseal saved.1 sealed)
            (EmailRecord.reseal_apart _ _) } :=
        Unseen.of_map (fun _ => Table.mem_revise (EmailRecord.reseal_apart _ _))
          (fun r => by unfold EmailRecord.reseal; split <;> exact ⟨rfl, rfl, rfl⟩) rfl
      refine (h.unseen hu).note_updated ?_
      rw [exists_email_iff]
      simp only [hu.emails]
      exact exists_email_iff.1 ⟨r, Table.mem_of_find? hr⟩
  split at hw
  · rename_i hempty
    obtain ⟨rfl, -⟩ := Prod.mk.inj (Except.ok.inj hw)
    exact hsound.quiet hi hempty
  · rename_i hne
    simp only [Except.bind_eq_ok] at hw
    obtain ⟨t₁, hl, hw⟩ := hw
    obtain ⟨rfl, -⟩ := Prod.mk.inj (Except.ok.inj hw)
    exact hsound.written hi.below hne hl

end Huliho
