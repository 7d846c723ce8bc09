import Huliho.Store.Walks

/-!
# Client and refresh writes walk

`Email/set`, refreshes of flags, removals, parks, the sweep and the previews as walks of `Filing`.
The one that owes anything to its callers is the `Email/set`: `SetWrite.Asked` says what.
-/

namespace Huliho

section

variable {kept : Prop} {t t' : Tables} {w w' : Writing} {row : EmailRecord}
  {wanted : List MailboxId} {id : EmailId} {folder : MailboxId}

/-! ## Keywords and stars -/

/-- Where a folder shows labels, the starred label is a mailbox and another one than the folder. -/
theorem starred_spec {starred : MailboxId} (h : (Labels.read t folder).starred = some starred) :
    HasMailbox t starred ∧ (Stores t → starred ≠ folder) := by
  unfold Labels.starred at h
  split at h
  · rename_i hshown
    refine ⟨(Labels.stand_read t folder).get h, fun hs => ?_⟩
    rintro rfl
    obtain ⟨b, hb, -⟩ := Option.bind_eq_some_iff.1 (of_decide_eq_true hshown)
    obtain ⟨hmem, hid, hstore⟩ := Table.mem_of_find? hb
    obtain ⟨e, he, heq⟩ := Option.map_eq_some_iff.1 h
    obtain ⟨c, hc, hlabel⟩ := List.mem_filterMap.1
      (List.mem_reverse.1 (List.mem_of_find?_eq_some he))
    obtain ⟨label, hlabel, rfl⟩ := Option.map_eq_some_iff.1 hlabel
    rw [MailboxRecord.eq_of_id hc hmem (heq.trans hid.symm), hs b hmem hstore] at hlabel
    cases hlabel
  · cases h

/-- **The star follows the keyword.** -/
theorem Walk.star (hr : ∃ r ∈ w.tables.emails, r.id = id ∧ r.folderId = folder)
    (hs : kept → Stores w.tables) : Walk kept w.tables (star w id folder).tables := by
  unfold Huliho.star
  split
  · rename_i starred r hstarred hrow
    obtain ⟨hmem, rfl⟩ := rowOf_eq_some.1 hrow
    obtain ⟨hhas, hne⟩ := starred_spec hstarred
    obtain ⟨r', hr', hid, hfolder⟩ := hr
    rw [EmailRecord.eq_of_id hr' hmem hid] at hfolder
    simp only
    split
    · exact .refl
    refine .memberships hmem rfl fun hk => ?_
    split
    · refine ⟨.inr ⟨hmem, fun hm => List.mem_append_left _ (mem_currentMemberships.2 hm)⟩,
        fun mailbox hm => ?_⟩
      rcases List.mem_append.1 hm with hm | hm
      · exact .inl (mem_currentMemberships.1 hm)
      · exact .inr (List.mem_singleton.1 hm ▸ hhas)
    · refine ⟨.inr ⟨hmem, fun hm => List.mem_filter.2 ⟨mem_currentMemberships.2 hm, ?_⟩⟩,
        fun mailbox hm => .inl (mem_currentMemberships.1 (List.mem_filter.1 hm).1)⟩
      exact decide_eq_true (hfolder ▸ (hne (hs hk)).symm)
  · exact .refl

theorem KeywordChange.apply_walk {change : KeywordChange} (h : change.apply w = some w') :
    Walk kept w.tables w'.tables ∧
      ∃ r ∈ w'.tables.emails, r.id = change.id ∧ r.folderId = change.folder := by
  unfold KeywordChange.apply at h
  split at h
  · cases h
  · rename_i r hr
    obtain ⟨hmem, hid, hfolder, -⟩ := Table.mem_of_find? hr
    split at h
    · obtain rfl := Option.some.inj h
      exact ⟨.refl, r, hmem, hid, hfolder⟩
    · obtain rfl := Option.some.inj h
      refine ⟨.tagged w change.id _, _, (Table.mem_revise (EmailRecord.tag_apart _ _)).2
        ⟨r, hmem, rfl⟩, ?_⟩
      unfold EmailRecord.tag
      split <;> exact ⟨hid, hfolder⟩

theorem Walk.flagged (w : Writing) (id : EmailId) (on : Bool) :
    Walk kept w.tables (flagged w id on).tables := by
  unfold Huliho.flagged
  split
  · exact .refl
  · split
    · exact .refl
    · exact .tagged _ _ _

/-! ## Labels -/

/-- What a label change owes: it adds mailboxes of the account and does not take the email out of
the folder it changes the labels in. -/
structure LabelChange.Asked (t : Tables) (change : LabelChange) : Prop where
  added : ∀ mailbox ∈ change.add, HasMailbox t mailbox
  stays : change.folder ∉ change.remove

theorem LabelChange.Asked.stands {change : LabelChange} (h : change.Asked t) (hs : Stand t t') :
    change.Asked t' := ⟨fun mailbox hm => (hs.ids mailbox).2 (h.added mailbox hm), h.stays⟩

/-- The labels a change leaves an email with are mailboxes it may be brought to. -/
theorem LabelChange.Asked.homes {change : LabelChange} (h : change.Asked t) (hr : row ∈ t.emails)
    (hfolder : row.folderId = change.folder) :
    Homes t row (((currentMemberships t row.id).filter fun m => m ∉ change.remove) ++
      change.add).dedup := by
  refine ⟨.inr ⟨hr, fun hm => ?_⟩, fun mailbox hm => ?_⟩
  · refine List.mem_dedup.2 (List.mem_append_left _ (List.mem_filter.2
      ⟨mem_currentMemberships.2 hm, ?_⟩))
    exact decide_eq_true (hfolder ▸ h.stays)
  · rcases List.mem_append.1 (List.mem_dedup.1 hm) with hm | hm
    · exact .inl (mem_currentMemberships.1 (List.mem_filter.1 hm).1)
    · exact .inr (h.added mailbox hm)

/-- **A label change.** -/
theorem Walk.labelChange {change : LabelChange} (h : Huliho.relabel w change = some w')
    (ha : kept → change.Asked w.tables) : Walk kept w.tables w'.tables := by
  unfold Huliho.relabel at h
  split at h
  · cases h
  · rename_i r hr
    obtain ⟨hmem, hid, hfolder, -⟩ := Table.mem_of_find? hr
    have hwalk := Walk.memberships hmem hid fun hk => hid ▸ (ha hk).homes hmem hfolder
    obtain rfl := Option.some.inj h
    split
    · exact hwalk
    · split
      · exact hwalk.trans (.flagged _ _ _)
      · split
        · exact hwalk.trans (.flagged _ _ _)
        · exact hwalk

/-! ## Rows that leave and rows that move -/

theorem Walk.leaveRow (w : Writing) (gone : GoneRow) :
    Walk kept w.tables (leaveRow w gone).tables := by
  unfold Huliho.leaveRow
  split
  · exact .refl
  · rename_i r hr
    obtain ⟨hmem, hat⟩ := Table.mem_of_find? hr
    have hremoved : Walk kept w.tables _ := .removed
      (fun r => r.id = gone.id ∧ r.folderId = gone.folder ∧ r.uid = gone.uid) hmem hat
      (fun s hs hp => EmailRecord.eq_of_id hs hmem (hp.1.trans hat.1.symm))
      ((noteAll w.ledger (currentMemberships w.tables gone.id)).note (.email, gone.id) .destroyed)
    rw [hat.1] at hremoved
    exact hremoved

theorem Walk.lose {parks : Bool} {lost : GoneRow} (h : lose parks w lost = .ok w') :
    Walk kept w.tables w'.tables := by
  unfold Huliho.lose at h
  split at h
  · simp only [Except.bind_eq_ok, constrained_eq_ok, pure, Except.pure, Except.ok.injEq] at h
    obtain ⟨emails, hu, rfl⟩ := h
    refine .revised (EmailRecord.parkRow lost) (fun _ => Table.mem_update? hu) (fun s => ?_) rfl rfl
    unfold EmailRecord.parkRow
    split
    · exact ⟨rfl, rfl, rfl, Int.natAbs_neg _⟩
    · exact ⟨rfl, rfl, rfl, rfl⟩
  · obtain rfl := Except.ok.inj h
    exact .leaveRow w lost

/-- The row a move takes along. -/
theorem Upserted.moved {change : MoveChange} {r : EmailRecord} (hr : r ∈ t.emails)
    (hid : r.id = change.id)
    (hrows : ∀ s, s ∈ t'.emails ↔ ∃ r ∈ t.emails, r.moveTo change = s) :
    Upserted t { r with folderId := change.toFolder, uid := change.uid } t' := by
  refine ⟨fun s => (hrows s).trans ⟨?_, ?_⟩⟩
  · rintro ⟨s, hs, rfl⟩
    unfold EmailRecord.moveTo
    split
    · rename_i hsid
      rw [EmailRecord.eq_of_id hs hr (hsid.trans hid.symm)]
      exact .inr rfl
    · rename_i hsid
      exact .inl ⟨hs, fun hc => hsid (hc.trans hid)⟩
  · rintro (⟨hs, hne⟩ | rfl)
    · exact ⟨s, hs, if_neg fun hc => hne (hc.trans hid.symm)⟩
    · exact ⟨r, hr, if_pos hid⟩

/-- **A move.** -/
theorem Walk.moved {parks : Bool} {change : MoveChange} {placed : Placed}
    (h : moved parks w change = .ok (w', placed)) (hu : kept → change.uid < UID_BOUND) :
    Walk kept w.tables w'.tables := by
  unfold Huliho.moved at h
  split at h
  · simp only [pure, Except.pure, Except.ok.injEq, Prod.mk.injEq] at h
    obtain ⟨rfl, -⟩ := h
    exact .refl
  · rename_i r hr
    have hp : Walk kept w.tables (Huliho.pinned w.tables
      ⟨change.toFolder, change.uidValidity⟩).1 := .pinned _ _
    have hstands : (Huliho.pinned w.tables ⟨change.toFolder, change.uidValidity⟩).2 = true →
      HasMailbox w.tables change.toFolder := hasMailbox_of_pinned
    have hemails := pinned_emails w.tables ⟨change.toFolder, change.uidValidity⟩
    revert h hp hstands hemails
    generalize Huliho.pinned w.tables ⟨change.toFolder, change.uidValidity⟩ = checked
    obtain ⟨t, stands⟩ := checked
    intro h hp hstands hemails
    simp only at h hp hstands hemails
    obtain ⟨hmem, hid, -⟩ := Table.mem_of_find? hr
    rw [← hemails] at hmem
    split at h
    · simp only [Except.bind_eq_ok, pure, Except.pure, Except.ok.injEq, Prod.mk.injEq] at h
      obtain ⟨w₁, hl, rfl, -⟩ := h
      exact hp.trans (.lose hl)
    · rename_i hfree
      simp only [Except.bind_eq_ok, constrained_eq_ok, pure, Except.pure, Except.ok.injEq,
        Prod.mk.injEq] at h
      obtain ⟨emails, hup, rfl, -⟩ := h
      have hrow : Upserted t { r with folderId := change.toFolder, uid := change.uid }
          { t with emails } := .moved hmem hid fun s => Table.mem_update? hup
      have hhas : HasMailbox t change.toFolder := (hp.stands.ids _).2 (hstands (by simp_all))
      have hfile : ∀ wanted, (kept → Homes t _ wanted) → Walk kept t _ := fun wanted hw =>
        Walk.refiled w.ledger hrow rfl rfl ⟨r, hmem, rfl, rfl⟩ hid hw fun hk => .inl (hu hk)
      have hlabels : (Labels.read { t with emails } change.toFolder).Stand t :=
        Labels.stand_read t change.toFolder
      exact hp.trans (hfile _ fun _ => hlabels.homes hhas (by rfl) _)

/-! ## Drafts -/

theorem Walk.draft {generated : ThreadId} {d : DraftRow} {wentIn : Bool}
    (h : draft generated w d = .ok (w', wentIn)) (hu : kept → d.facts.uid < UID_BOUND) :
    Walk kept w.tables w'.tables := by
  have hp : Walk kept w.tables (Huliho.pinned w.tables ⟨d.folder, d.uidValidity⟩).1 := .pinned _ _
  have hstands : (Huliho.pinned w.tables ⟨d.folder, d.uidValidity⟩).2 = true →
      HasMailbox w.tables d.folder := hasMailbox_of_pinned
  unfold Huliho.draft at h
  revert h hp hstands
  generalize Huliho.pinned w.tables ⟨d.folder, d.uidValidity⟩ = checked
  obtain ⟨t, stands⟩ := checked
  intro h hp hstands
  simp only at h hp hstands
  split at h
  · simp only [pure, Except.pure, Except.ok.injEq, Prod.mk.injEq] at h
    obtain ⟨rfl, -⟩ := h
    exact hp
  · simp only [Except.bind_eq_ok, pure, Except.pure, Except.ok.injEq, Prod.mk.injEq] at h
    obtain ⟨t', hi, rfl, -⟩ := h
    have hjoin : Walk kept t (Huliho.join { w with tables := t } d.named generated).1.tables :=
      .join { w with tables := t } d.named generated
    have hhas : HasMailbox t d.folder := (hp.stands.ids _).2 (hstands (by simp_all))
    exact hp.trans (hjoin.trans (.insert hi ((hjoin.stands.ids d.folder).2 hhas) hu))

/-! ## The write -/

/-- What an `Email/set` owes: the server's UIDs are `u32`s and its label changes are as they should.
-/
structure SetWrite.Asked (t : Tables) (set : SetWrite) : Prop where
  drafts : ∀ d ∈ set.drafts, d.facts.uid < UID_BOUND
  moves : ∀ change ∈ set.moves, change.uid < UID_BOUND
  labels : ∀ change ∈ set.labels, change.Asked t

theorem Walk.setRun {generate : EmailId → ThreadId} {set : SetWrite} {s : Setting}
    (h : set.run generate t = .ok s) (ha : kept → set.Asked t) (hs : kept → Stores t) :
    Walk kept t s.writing.tables := by
  simp only [SetWrite.run, Except.bind_eq_ok, pure, Except.pure, Except.ok.injEq] at h
  obtain ⟨s₁, hdrafts, s₂, hmoves, w, hlost, rfl⟩ := h
  have h₁ : Walk kept t s₁.writing.tables := by
    refine foldlM_keeps (P := fun s : Setting => Walk kept t s.writing.tables) .refl
      (fun d hd s s' h hd' => ?_) hdrafts
    simp only [Setting.draft, Except.bind_eq_ok, pure, Except.pure, Except.ok.injEq] at hd'
    obtain ⟨⟨w, wentIn⟩, hdraft, rfl⟩ := hd'
    exact h.trans (.draft hdraft fun hk => (ha hk).drafts d hd)
  have h₂ : Walk kept t (set.keywords.foldl Setting.keywords s₁).writing.tables := by
    refine foldl_keeps (P := fun s : Setting => Walk kept t s.writing.tables) h₁
      fun change _ s h => ?_
    unfold Setting.keywords
    split
    · rename_i w hw
      obtain ⟨hwalk, hr⟩ := KeywordChange.apply_walk hw
      exact (h.trans hwalk).trans (.star hr fun hk => (h.trans hwalk).stands.stores (hs hk))
    · exact h
  have h₃ : Walk kept t (set.labels.foldl Setting.labels
      (set.keywords.foldl Setting.keywords s₁)).writing.tables := by
    refine foldl_keeps (P := fun s : Setting => Walk kept t s.writing.tables) h₂
      fun change hc s h => ?_
    unfold Setting.labels
    split
    · rename_i w hw
      exact h.trans (.labelChange hw fun hk => ((ha hk).labels change hc).stands h.stands)
    · exact h
  have h₄ : Walk kept t s₂.writing.tables := by
    refine foldlM_keeps (P := fun s : Setting => Walk kept t s.writing.tables) h₃
      (fun change hc s s' h hm => ?_) hmoves
    simp only [Setting.moved, Except.bind_eq_ok, pure, Except.pure, Except.ok.injEq] at hm
    obtain ⟨⟨w, placed⟩, hmoved, rfl⟩ := hm
    have hwalk := h.trans (.moved hmoved fun hk => (ha hk).moves change hc)
    cases placed <;> exact hwalk
  have h₅ : Walk kept t (set.gone.foldl Huliho.leaveRow s₂.writing).tables :=
    foldl_keeps (P := fun w : Writing => Walk kept t w.tables) h₄
      fun gone _ w h => h.trans (.leaveRow w gone)
  exact foldlM_keeps (P := fun w : Writing => Walk kept t w.tables) h₅
    (fun lost _ w w' h hl => h.trans (.lose hl)) hlost

/-- **An `Email/set`.** -/
theorem Walk.writeSet {generate : EmailId → ThreadId} {set : SetWrite} {answer : SetWritten}
    (h : writeSet generate t set = .ok (t', answer)) (ha : kept → set.Asked t)
    (hs : kept → Stores t) : Walk kept t t' := by
  simp only [Huliho.writeSet, Except.bind_eq_ok, pure, Except.pure] at h
  obtain ⟨s, hrun, h⟩ := h
  refine (Walk.setRun hrun ha hs).trans ?_
  split at h
  · simp only [Except.bind_eq_ok, Except.ok.injEq] at h
    obtain ⟨_, rfl, h⟩ := h
    obtain ⟨rfl, -⟩ := Prod.mk.inj h
    exact .refl
  · simp only [Except.bind_eq_ok, Except.ok.injEq] at h
    obtain ⟨t₁, hl, _, rfl, h⟩ := h
    obtain ⟨rfl, -⟩ := Prod.mk.inj h
    exact (Walk.ledgered hl).trans (.of_changes (prune_frame t₁))

/-! ## A refresh -/

theorem Walk.applyFlag {labels : Labels} {change : FlagChange} (hl : labels.Stand w.tables)
    (hf : HasMailbox w.tables folder) :
    Walk kept w.tables (applyFlag folder labels w change).tables := by
  have hk : Walk kept w.tables (applyKeywords folder w change).tables := by
    unfold applyKeywords
    simp only
    split
    · exact .revised (EmailRecord.flag folder change.uid change.keywords)
        (fun _ => Table.mem_revise (EmailRecord.flag_apart _ _ _))
        (fun s => by unfold EmailRecord.flag; split <;> exact ⟨rfl, rfl, rfl, rfl⟩) rfl rfl
    · exact .refl
  refine hk.trans ?_
  unfold Huliho.applyFlag applyLabels
  split
  · rename_i found id receivedAt _ hrow
    obtain ⟨r, hr, heq⟩ := Option.map_eq_some_iff.1 hrow
    obtain ⟨rfl, rfl⟩ := Prod.mk.inj heq
    obtain ⟨hmem, hfolder, -⟩ := Table.mem_of_find? hr
    exact .relabel (hl.walk hk.stands) hmem ((hk.stands.ids folder).2 hf) hfolder
  · exact .refl

theorem Walk.removeUid (folder : MailboxId) (w : Writing) (uid : Nat) :
    Walk kept w.tables (removeUid folder w uid).tables := by
  unfold Huliho.removeUid
  split
  · exact .refl
  · rename_i r hr
    obtain ⟨hmem, hat⟩ := Table.mem_of_find? hr
    exact .removed (fun r => r.folderId = folder ∧ r.uid = uid) hmem hat
      (fun s hs hp => EmailRecord.eq_of_uid hs hmem (hp.1.trans hat.1.symm) (hp.2.trans hat.2.symm))
      (w.ledger.note (.email, r.id) .destroyed)

theorem Walk.applyFlags {standing : Standing} {changes : List FlagChange} {state : Option Nat}
    (h : applyFlags t standing changes = .ok (t', state)) : Walk kept t t' := by
  have hp : Walk kept t (Huliho.pinned t standing).1 := .pinned _ _
  have hstands : (Huliho.pinned t standing).2 = true → HasMailbox t standing.folder :=
    hasMailbox_of_pinned
  simp only [Huliho.applyFlags] at h
  split at h
  · obtain ⟨rfl, -⟩ := Prod.mk.inj (Except.ok.inj h)
    exact hp
  · rename_i hs
    rw [Except.bind_eq_ok] at h
    obtain ⟨⟨t₁, s⟩, hclose, h⟩ := h
    obtain ⟨rfl, -⟩ := Prod.mk.inj (Except.ok.inj h)
    have hhas := (hp.stands.ids _).2 (hstands (by simpa using hs))
    refine hp.trans (Walk.trans ?_ (.close hclose))
    exact foldl_keeps (P := fun w : Writing => Walk kept (Huliho.pinned t standing).1 w.tables)
      .refl fun change _ w h => h.trans
        (.applyFlag ((Labels.stand_read _ _).walk h.stands) ((h.stands.ids _).2 hhas))

theorem Walk.removeUids {standing : Standing} {uids : List Nat} {state : Option Nat}
    (h : removeUids t standing uids = .ok (t', state)) : Walk kept t t' := by
  have hp : Walk kept t (Huliho.pinned t standing).1 := .pinned _ _
  simp only [Huliho.removeUids] at h
  split at h
  · obtain ⟨rfl, -⟩ := Prod.mk.inj (Except.ok.inj h)
    exact hp
  · rw [Except.bind_eq_ok] at h
    obtain ⟨⟨t₁, s⟩, hclose, h⟩ := h
    obtain ⟨rfl, -⟩ := Prod.mk.inj (Except.ok.inj h)
    refine hp.trans (Walk.trans ?_ (.close hclose))
    exact foldl_keeps (P := fun w : Writing => Walk kept (Huliho.pinned t standing).1 w.tables)
      .refl fun uid _ w h => h.trans (.removeUid _ w uid)

theorem Walk.parkUids {standing : Standing} {uids : List Nat} {answer : Option Unit}
    (h : parkUids t standing uids = .ok (t', answer)) : Walk kept t t' := by
  have hp : Walk kept t (Huliho.pinned t standing).1 := .pinned _ _
  simp only [Huliho.parkUids] at h
  split at h
  · obtain ⟨rfl, -⟩ := Prod.mk.inj (Except.ok.inj h)
    exact hp
  · rw [Except.bind_eq_ok] at h
    obtain ⟨t₁, hloop, h⟩ := h
    obtain ⟨rfl, -⟩ := Prod.mk.inj (Except.ok.inj h)
    refine hp.trans (foldlM_keeps (P := fun t₁ => Walk kept (Huliho.pinned t standing).1 t₁) .refl
      (fun uid _ t₁ t₂ h ht => h.trans ?_) hloop)
    simp only [Except.bind_eq_ok, constrained_eq_ok, pure, Except.pure, Except.ok.injEq] at ht
    obtain ⟨emails, hu, rfl⟩ := ht
    refine .revised (EmailRecord.park standing.folder uid) (fun _ => Table.mem_update? hu)
      (fun s => ?_) rfl rfl
    unfold EmailRecord.park
    split
    · exact ⟨rfl, rfl, rfl, Int.natAbs_neg _⟩
    · exact ⟨rfl, rfl, rfl, rfl⟩

theorem Walk.sweepParked {state : Nat} (h : sweepParked t = .ok (t', state)) : Walk kept t t' := by
  unfold Huliho.sweepParked at h
  simp only at h
  split at h
  · obtain ⟨rfl, -⟩ := Prod.mk.inj (Except.ok.inj h)
    exact .refl
  · rw [Except.bind_eq_ok] at h
    obtain ⟨t₁, hloop, h⟩ := h
    obtain ⟨rfl, -⟩ := Prod.mk.inj (Except.ok.inj h)
    have hnext : Walk kept t (nextSequence t).1 := .of_tables rfl rfl rfl
    refine (foldlM_keeps (P := fun t₁ => Walk kept t t₁) hnext
      (fun folder _ t₁ t₂ h hl => ?_) hloop).trans (.of_changes (prune_frame t₁))
    exact h.trans ((Walk.leave _ folder _ .unmatched).trans (.of_changes (log_frame hl)))

theorem Walk.advance (t : Tables) (standing : Standing) (synced : Synced) :
    Walk kept t (advance t standing synced) := by
  have hp : Walk kept t (Huliho.pinned t standing).1 := .pinned _ _
  simp only [Huliho.advance]
  split
  · exact hp
  · exact hp.trans (.of_tables rfl rfl rfl)

/-! ## Previews -/

theorem Walk.savePreviews
    {preview : EmailId → String → Bytes → Option (Except StoreError Bytes)}
    {previews : List (EmailId × String)} {state : Nat}
    (h : savePreviews preview t previews = .ok (t', state)) : Walk kept t t' := by
  unfold Huliho.savePreviews at h
  rw [Except.bind_eq_ok] at h
  obtain ⟨w, hloop, h⟩ := h
  have hwalk : Walk kept t w.tables := by
    refine foldlM_keeps (P := fun w : Writing => Walk kept t w.tables) .refl
      (fun saved _ w w' h hs => h.trans ?_) hloop
    unfold savePreview at hs
    split at hs
    · obtain rfl : w = w' := by simpa [pure, Except.pure] using hs
      exact .refl
    · simp only [Except.bind_eq_ok, pure, Except.pure, Except.ok.injEq] at hs
      obtain ⟨sealed, -, rfl⟩ := hs
      exact .revised (EmailRecord.reseal saved.1 sealed)
        (fun _ => Table.mem_revise (EmailRecord.reseal_apart _ _))
        (fun s => by unfold EmailRecord.reseal; split <;> exact ⟨rfl, rfl, rfl, rfl⟩) rfl rfl
  refine hwalk.trans ?_
  split at h
  · obtain ⟨rfl, -⟩ := Prod.mk.inj (Except.ok.inj h)
    exact .refl
  · simp only [Except.bind_eq_ok] at h
    obtain ⟨t₁, hl, h⟩ := h
    obtain ⟨rfl, -⟩ := Prod.mk.inj (Except.ok.inj h)
    exact (Walk.ledgered hl).trans (.of_changes (prune_frame t₁))

end

end Huliho
