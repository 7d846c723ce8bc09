import Huliho.Store.Woven
import Huliho.Store.ClientWalks

/-!
# Every write keeps its threads woven

Each write of the store keeps `Woven`: most leave the threads alone, those that take folders away do
it under the log they write (`Shrinking`), and a draft or a batch joins what its hashes name
(**`Woven.writeSet`**, **`Woven.writeBatch`**).
-/

namespace Huliho

section

variable {names : Naming} {free : ThreadId → Prop} {before t t' : Tables} {w w' : Writing}
  {id : EmailId} {folder : MailboxId}

/-! ## Rows of a client -/

theorem Woven.logged (h : Woven names free t) (hf : t' = { t with changes := t'.changes }) :
    Woven names free t' :=
  h.of_tables (by rw [hf]) (by rw [hf])

theorem Woven.pinned (h : Woven names free t) (standing : Standing) :
    Woven names free (pinned t standing).1 :=
  h.of_tables (pinned_emails t standing) (pinned_unseen t standing).messageIds

theorem Woven.tagged (h : Woven names free w.tables) (keywords : Finset String) :
    Woven names free (tagged w id keywords).tables :=
  h.restated (EmailRecord.tag id keywords) (fun _ => Table.mem_revise (EmailRecord.tag_apart _ _))
    (fun s => by unfold EmailRecord.tag; split <;> exact ⟨rfl, rfl, rfl⟩) rfl

theorem Woven.memberships (h : Woven names free w.tables) (receivedAt : Int)
    (current wanted : List MailboxId) :
    Woven names free (memberships w id receivedAt current wanted).tables := by
  unfold Huliho.memberships
  split
  · exact h
  · exact h.of_tables rfl rfl

theorem Woven.star (h : Woven names free w.tables) :
    Woven names free (star w id folder).tables := by
  unfold Huliho.star
  split
  · simp only
    split
    · exact h
    · exact h.memberships _ _ _
  · exact h

theorem Woven.flagged (h : Woven names free w.tables) (on : Bool) :
    Woven names free (flagged w id on).tables := by
  unfold Huliho.flagged
  split
  · exact h
  · split
    · exact h
    · exact h.tagged _

theorem Woven.keywordChange (h : Woven names free w.tables) {change : KeywordChange}
    (hc : change.apply w = some w') : Woven names free w'.tables := by
  unfold KeywordChange.apply at hc
  split at hc
  · cases hc
  · split at hc
    · exact Option.some.inj hc ▸ h
    · rw [← Option.some.inj hc]
      exact h.tagged _

theorem Woven.labelChange (h : Woven names free w.tables) {change : LabelChange}
    (hc : Huliho.relabel w change = some w') : Woven names free w'.tables := by
  unfold Huliho.relabel at hc
  split at hc
  · cases hc
  · rw [← Option.some.inj hc]
    split
    · exact h.memberships _ _ _
    · split
      · exact (h.memberships _ _ _).flagged true
      · split
        · exact (h.memberships _ _ _).flagged false
        · exact h.memberships _ _ _

/-- Rows deleted by where they lie, then their thread left. -/
theorem Woven.removed (h : Woven names free w.tables) (p : EmailRecord → Prop) [DecidablePred p]
    (members : Table Membership.Apart) (ledger : Ledger) (thread : ThreadId) :
    Woven names free (Huliho.left ⟨{ w.tables with
      emails := w.tables.emails.delete p
      memberships := members }, ledger⟩ thread).tables := by
  refine Woven.left (w := ⟨_, ledger⟩) ?_ thread
  exact h.departed (fun r hr => (Table.mem_delete.1 hr).1) fun _ _ _ hp => hp

theorem Woven.leaveRow (h : Woven names free w.tables) (gone : GoneRow) :
    Woven names free (leaveRow w gone).tables := by
  unfold Huliho.leaveRow
  split
  · exact h
  · exact h.removed _ _ _ _

theorem Woven.lose (h : Woven names free w.tables) {parks : Bool} {lost : GoneRow}
    (hl : lose parks w lost = .ok w') : Woven names free w'.tables := by
  unfold Huliho.lose at hl
  split at hl
  · simp only [Except.bind_eq_ok, constrained_eq_ok, pure, Except.pure, Except.ok.injEq] at hl
    obtain ⟨emails, hu, rfl⟩ := hl
    refine h.restated (EmailRecord.parkRow lost) (fun _ => Table.mem_update? hu) (fun s => ?_) rfl
    unfold EmailRecord.parkRow
    split <;> exact ⟨rfl, rfl, rfl⟩
  · exact Except.ok.inj hl ▸ h.leaveRow lost

theorem Woven.moved (h : Woven names free w.tables) {parks : Bool} {change : MoveChange}
    {placed : Placed} (hm : moved parks w change = .ok (w', placed)) :
    Woven names free w'.tables := by
  unfold Huliho.moved at hm
  split at hm
  · simp only [pure, Except.pure, Except.ok.injEq, Prod.mk.injEq] at hm
    exact hm.1 ▸ h
  · have hp := h.pinned ⟨change.toFolder, change.uidValidity⟩
    revert hm hp
    generalize Huliho.pinned w.tables ⟨change.toFolder, change.uidValidity⟩ = checked
    obtain ⟨t, stands⟩ := checked
    intro hm hp
    simp only at hm hp
    split at hm
    · simp only [Except.bind_eq_ok, pure, Except.pure, Except.ok.injEq, Prod.mk.injEq] at hm
      obtain ⟨w₁, hl, rfl, -⟩ := hm
      exact Woven.lose (w := { w with tables := t }) hp hl
    · simp only [Except.bind_eq_ok, constrained_eq_ok, pure, Except.pure, Except.ok.injEq,
        Prod.mk.injEq] at hm
      obtain ⟨emails, hup, rfl, -⟩ := hm
      have hrow : Woven names free { t with emails } := by
        refine hp.restated (EmailRecord.moveTo change) (fun _ => Table.mem_update? hup)
          (fun s => ?_) rfl
        unfold EmailRecord.moveTo
        split <;> exact ⟨rfl, rfl, rfl⟩
      exact Woven.memberships (w := { w with tables := { t with emails } }) hrow _ _ _

/-- **A draft** whose hashes are what its blob names. -/
theorem Woven.draft (h : Woven names free w.tables) (hh : HashLive w.tables) {generated : ThreadId}
    {d : DraftRow} {wentIn : Bool} (hg : free generated)
    (hn : ∀ hash, names d.id d.sealed hash → hash ∈ d.named)
    (hd : draft generated w d = .ok (w', wentIn)) : Woven names free w'.tables := by
  have hp := h.pinned ⟨d.folder, d.uidValidity⟩
  have hhp := hh.unseen (pinned_unseen w.tables ⟨d.folder, d.uidValidity⟩)
  unfold Huliho.draft at hd
  revert hd hp hhp
  generalize Huliho.pinned w.tables ⟨d.folder, d.uidValidity⟩ = checked
  obtain ⟨t, stands⟩ := checked
  intro hd hp hhp
  simp only at hd hp hhp
  split at hd
  · simp only [pure, Except.pure, Except.ok.injEq, Prod.mk.injEq] at hd
    exact hd.1 ▸ hp
  · simp only [Except.bind_eq_ok, pure, Except.pure, Except.ok.injEq, Prod.mk.injEq] at hd
    obtain ⟨t', hi, rfl, -⟩ := hd
    obtain ⟨hj, hfree, hpoints⟩ := Woven.join (w := { w with tables := t }) hp hhp d.named hg
    exact hj.insert hfree (fun hash hnamed => hpoints hash (hn hash hnamed)) hi

/-! ## An `Email/set` -/

/-- **An `Email/set`** whose drafts name what their blobs do. -/
theorem Woven.writeSet (hi : Inv before) (h : Woven names free before)
    {generate : EmailId → ThreadId} {set : SetWrite} {answer : SetWritten}
    (hf : Generating generate set.drafts before) (hg : ∀ d ∈ set.drafts, free (generate d.id))
    (hn : ∀ d ∈ set.drafts, ∀ hash, names d.id d.sealed hash → hash ∈ d.named)
    (hw : writeSet generate before set = .ok (t, answer)) : Woven names free t := by
  simp only [Huliho.writeSet, Except.bind_eq_ok, pure, Except.pure] at hw
  obtain ⟨s, hr, hw⟩ := hw
  have hs : Woven names free s.writing.tables := by
    simp only [SetWrite.run, Except.bind_eq_ok, pure, Except.pure, Except.ok.injEq] at hr
    obtain ⟨s₁, hdrafts, s₂, hmoves, w, hlost, rfl⟩ := hr
    have h₁ : Woven names free s₁.writing.tables := by
      refine (foldlM_rest (P := fun rest (s : Setting) => rest ⊆ set.drafts ∧
        Sound before s.writing ∧ Generating generate rest s.writing.tables ∧
          Woven names free s.writing.tables) (fun d rest s s' h hs => ?_)
        ⟨List.Subset.refl _, Sound.start hi, hf, h⟩ hdrafts).2.2.2
      obtain ⟨hsub, hsound, hgen, hwoven⟩ := h
      obtain ⟨hd, hrest⟩ := List.cons_subset.1 hsub
      simp only [Setting.draft, Except.bind_eq_ok, pure, Except.pure, Except.ok.injEq] at hs
      obtain ⟨⟨w, wentIn⟩, hdraft, rfl⟩ := hs
      obtain ⟨hsound', hgen'⟩ := hsound.draft hgen hdraft
      exact ⟨hrest, hsound', hgen', hwoven.draft hsound.hashes (hg d hd) (hn d hd) hdraft⟩
    have h₂ : Woven names free (set.keywords.foldl Setting.keywords s₁).writing.tables := by
      refine foldl_keeps (P := fun s : Setting => Woven names free s.writing.tables) h₁
        fun change _ s h => ?_
      unfold Setting.keywords
      split
      · exact (h.keywordChange ‹_›).star
      · exact h
    have h₃ : Woven names free (set.labels.foldl Setting.labels
        (set.keywords.foldl Setting.keywords s₁)).writing.tables := by
      refine foldl_keeps (P := fun s : Setting => Woven names free s.writing.tables) h₂
        fun change _ s h => ?_
      unfold Setting.labels
      split
      · exact h.labelChange ‹_›
      · exact h
    have h₄ : Woven names free s₂.writing.tables := by
      refine foldlM_keeps (P := fun s : Setting => Woven names free s.writing.tables) h₃
        (fun change _ s s' h hm => ?_) hmoves
      simp only [Setting.moved, Except.bind_eq_ok, pure, Except.pure, Except.ok.injEq] at hm
      obtain ⟨⟨w, placed⟩, hmoved, rfl⟩ := hm
      have := h.moved hmoved
      cases placed <;> exact this
    have h₅ : Woven names free (set.gone.foldl Huliho.leaveRow s₂.writing).tables :=
      foldl_keeps (P := fun w : Writing => Woven names free w.tables) h₄
        fun gone _ _ h => h.leaveRow gone
    exact foldlM_keeps (P := fun w : Writing => Woven names free w.tables) h₅
      (fun _ _ _ _ h hl => h.lose hl) hlost
  split at hw
  · simp only [Except.bind_eq_ok, Except.ok.injEq] at hw
    obtain ⟨_, rfl, hw⟩ := hw
    exact (Prod.mk.inj hw).1 ▸ hs
  · simp only [Except.bind_eq_ok, Except.ok.injEq] at hw
    obtain ⟨t₁, hl, _, rfl, hw⟩ := hw
    have hnext : Woven names free (nextSequence s.writing.tables).1 := hs.of_tables rfl rfl
    rw [← (Prod.mk.inj hw).1]
    exact (hnext.logged (Ledger.logsUnder_write hl).frame).logged (prune_frame t₁)

/-! ## A refresh -/

theorem Woven.close (h : Woven names free w.tables) {standing : Standing} {state : Nat}
    (hc : close w standing = .ok (t, state)) : Woven names free t := by
  unfold Huliho.close at hc
  split at hc
  · exact (Prod.mk.inj (Except.ok.inj hc)).1 ▸ h
  · simp only [Except.bind_eq_ok, pure, Except.pure, Except.ok.injEq, Prod.mk.injEq] at hc
    obtain ⟨t₁, hl, t₂, hlog, rfl, -⟩ := hc
    have hnext : Woven names free (nextSequence w.tables).1 := h.of_tables rfl rfl
    exact ((hnext.logged (Ledger.logsUnder_write hl).frame).logged (log_frame hlog)).logged
      (prune_frame t₂)

theorem Woven.applyFlag (h : Woven names free w.tables) (labels : Labels) (change : FlagChange) :
    Woven names free (applyFlag folder labels w change).tables := by
  have hk : Woven names free (applyKeywords folder w change).tables := by
    unfold applyKeywords
    simp only
    split
    · exact h.restated (EmailRecord.flag folder change.uid change.keywords)
        (fun _ => Table.mem_revise (EmailRecord.flag_apart _ _ _))
        (fun s => by unfold EmailRecord.flag; split <;> exact ⟨rfl, rfl, rfl⟩) rfl
    · exact h
  unfold Huliho.applyFlag applyLabels
  split
  · unfold Labels.relabel
    simp only
    split
    · exact hk
    · exact hk.of_tables rfl rfl
  · exact hk

theorem Woven.removeUid (h : Woven names free w.tables) (uid : Nat) :
    Woven names free (removeUid folder w uid).tables := by
  unfold Huliho.removeUid
  split
  · exact h
  · exact h.removed _ _ _ _

theorem Woven.applyFlags (h : Woven names free t) {standing : Standing} {changes : List FlagChange}
    {state : Option Nat} (hw : applyFlags t standing changes = .ok (t', state)) :
    Woven names free t' := by
  have hp := h.pinned standing
  simp only [Huliho.applyFlags] at hw
  split at hw
  · exact (Prod.mk.inj (Except.ok.inj hw)).1 ▸ hp
  · rw [Except.bind_eq_ok] at hw
    obtain ⟨⟨t₁, s⟩, hclose, hw⟩ := hw
    rw [← (Prod.mk.inj (Except.ok.inj hw)).1]
    refine Woven.close ?_ hclose
    exact foldl_keeps (P := fun w : Writing => Woven names free w.tables) hp
      fun change _ _ h => h.applyFlag _ change

theorem Woven.removeUids (h : Woven names free t) {standing : Standing} {uids : List Nat}
    {state : Option Nat} (hw : removeUids t standing uids = .ok (t', state)) :
    Woven names free t' := by
  have hp := h.pinned standing
  simp only [Huliho.removeUids] at hw
  split at hw
  · exact (Prod.mk.inj (Except.ok.inj hw)).1 ▸ hp
  · rw [Except.bind_eq_ok] at hw
    obtain ⟨⟨t₁, s⟩, hclose, hw⟩ := hw
    rw [← (Prod.mk.inj (Except.ok.inj hw)).1]
    refine Woven.close ?_ hclose
    exact foldl_keeps (P := fun w : Writing => Woven names free w.tables) hp
      fun uid _ _ h => h.removeUid uid

theorem Woven.parkUids (h : Woven names free t) {standing : Standing} {uids : List Nat}
    {answer : Option Unit} (hw : parkUids t standing uids = .ok (t', answer)) :
    Woven names free t' := by
  have hp := h.pinned standing
  simp only [Huliho.parkUids] at hw
  split at hw
  · exact (Prod.mk.inj (Except.ok.inj hw)).1 ▸ hp
  · rw [Except.bind_eq_ok] at hw
    obtain ⟨t₁, hloop, hw⟩ := hw
    rw [← (Prod.mk.inj (Except.ok.inj hw)).1]
    refine foldlM_keeps (P := Woven names free) hp (fun uid _ t₁ t₂ h ht => ?_) hloop
    simp only [Except.bind_eq_ok, constrained_eq_ok, pure, Except.pure, Except.ok.injEq] at ht
    obtain ⟨emails, hu, rfl⟩ := ht
    refine h.restated (EmailRecord.park standing.folder uid) (fun _ => Table.mem_update? hu)
      (fun s => ?_) rfl
    unfold EmailRecord.park
    split <;> exact ⟨rfl, rfl, rfl⟩

theorem Woven.advance (h : Woven names free t) (standing : Standing) (synced : Synced) :
    Woven names free (advance t standing synced) := by
  have hp := h.pinned standing
  simp only [Huliho.advance]
  split
  · exact hp
  · exact hp.of_tables rfl rfl

/-- **Previews**, where a blob given one names what it did. -/
theorem Woven.savePreviews (h : Woven names free t)
    {preview : EmailId → String → Bytes → Option (Except StoreError Bytes)}
    (hn : ∀ id text blob resealed, preview id text blob = some (.ok resealed) →
      ∀ hash, names id resealed hash → names id blob hash)
    {previews : List (EmailId × String)} {state : Nat}
    (hw : savePreviews preview t previews = .ok (t', state)) : Woven names free t' := by
  unfold Huliho.savePreviews at hw
  rw [Except.bind_eq_ok] at hw
  obtain ⟨w, hloop, hw⟩ := hw
  have hwoven : Woven names free w.tables := by
    refine foldlM_keeps (P := fun w : Writing => Woven names free w.tables) h
      (fun saved _ w w' h hs => ?_) hloop
    unfold savePreview at hs
    split at hs
    · obtain rfl : w = w' := by simpa [pure, Except.pure] using hs
      exact h
    · rename_i resealed hfound
      simp only [Except.bind_eq_ok, pure, Except.pure, Except.ok.injEq] at hs
      obtain ⟨sealed, hok, rfl⟩ := hs
      obtain ⟨r, hr, hpreview⟩ := Option.bind_eq_some_iff.1 hfound
      obtain ⟨hmem, hid⟩ := Table.mem_of_find? hr
      refine h.revised (EmailRecord.reseal saved.1 sealed)
        (fun _ => Table.mem_revise (EmailRecord.reseal_apart _ _)) (fun s hs => ?_) rfl
      unfold EmailRecord.reseal
      split
      · rename_i hsid
        obtain rfl := EmailRecord.eq_of_id hs hmem (hsid.trans hid.symm)
        refine ⟨rfl, fun hash hnamed => ?_⟩
        rw [hok] at hpreview
        simp only [hsid] at hnamed ⊢
        exact hn _ _ _ _ hpreview hash hnamed
      · exact ⟨rfl, fun _ hnamed => hnamed⟩
  split at hw
  · exact (Prod.mk.inj (Except.ok.inj hw)).1 ▸ hwoven
  · simp only [Except.bind_eq_ok] at hw
    obtain ⟨t₁, hl, hw⟩ := hw
    have hnext : Woven names free (nextSequence w.tables).1 := hwoven.of_tables rfl rfl
    rw [← (Prod.mk.inj (Except.ok.inj hw)).1]
    exact (hnext.logged (Ledger.logsUnder_write hl).frame).logged (prune_frame t₁)

/-! ## Sweeps, passes and mailbox changes -/

/-- The rows inside a write that takes folders away. -/
structure Shrinking (names : Naming) (free : ThreadId → Prop) (before : Tables) (s : Nat)
    (t : Tables) : Prop where
  logged : Logged before t
  shrunk : Shrunk before t
  sequence : t.sequence = s
  woven : Woven names free t

theorem Shrinking.start (hi : Inv before) (h : Woven names free before)
    (hu : OnlyMailboxes before t) :
    Shrinking names free before (nextSequence t).2 (nextSequence t).1 :=
  ⟨hi.opened hu.unseen, .of_emails (by rw [nextSequence, hu]), rfl,
    h.of_tables (by rw [nextSequence, hu]) (by rw [nextSequence, hu])⟩

theorem Shrinking.vanish {s : Nat} (h : Shrinking names free before s t) (folder : MailboxId) :
    Shrinking names free before s (vanish t folder s) := by
  obtain ⟨hlogged, hshrunk, hq⟩ := h.logged.vanished h.shrunk h.sequence folder
  refine ⟨hlogged, hshrunk, hq, ?_⟩
  rw [← h.sequence]
  exact h.woven.vanish (h.logged.leave (h.shrunk.departs folder .all))

theorem Shrinking.renumber {s : Nat} (h : Shrinking names free before s t)
    (hr : renumber t folder s = .ok t') : Shrinking names free before s t' := by
  obtain ⟨hlogged, hshrunk, hq⟩ := h.logged.renumbered h.shrunk h.sequence hr
  refine ⟨hlogged, hshrunk, hq, ?_⟩
  rw [← h.sequence] at hr
  exact h.woven.renumber (h.logged.leave (h.shrunk.departs folder _)) hr

/-- One folder of the sweep. -/
theorem Shrinking.sweep {s : Nat} (h : Shrinking names free before s t)
    (hl : log (leave t folder s .unmatched) s (.mailbox, folder) .updated = .ok t') :
    Shrinking names free before s t' := by
  obtain rfl := h.sequence
  have hleft := h.logged.leave (h.shrunk.departs folder .unmatched)
  have hseq := leave_sequence t folder .unmatched
  have hframe := log_frame hl
  refine ⟨hleft.mailbox (by rw [hseq]; exact hl), ?_, ?_, (h.woven.leave hleft).logged hframe⟩
  · rw [hframe]
    exact h.shrunk.leave folder t.sequence .unmatched
  · rw [hframe]
    exact hseq

theorem Woven.sweepParked (hi : Inv before) (h : Woven names free before) {state : Nat}
    (hw : sweepParked before = .ok (t, state)) : Woven names free t := by
  unfold Huliho.sweepParked at hw
  simp only at hw
  split at hw
  · exact (Prod.mk.inj (Except.ok.inj hw)).1 ▸ h
  · rw [Except.bind_eq_ok] at hw
    obtain ⟨t₁, hloop, hw⟩ := hw
    rw [← (Prod.mk.inj (Except.ok.inj hw)).1]
    refine (foldlM_keeps (P := Shrinking names free before (nextSequence before).2)
      (.start hi h rfl) (fun _ _ _ _ h hl => h.sweep hl) hloop).woven.logged (prune_frame t₁)

/-- **A pass.** -/
theorem Woven.apply (hi : Inv before) (h : Woven names free before)
    {order : List MailboxId → List MailboxId} {mint : String → MailboxId}
    {found : List MailboxFacts} {letters : Letters} {flipped : Bool} {state : Nat}
    (hw : apply order mint before found letters flipped = .ok (t, state)) : Woven names free t := by
  unfold Huliho.apply at hw
  rw [Except.bind_eq_ok] at hw
  obtain ⟨p, hplan, hw⟩ := hw
  have hrows := planPass_mailboxes hplan
  split at hw
  · rw [← (Prod.mk.inj (Except.ok.inj hw)).1]
    exact h.of_tables (by rw [hrows]) (by rw [hrows])
  · simp only [Except.bind_eq_ok] at hw
    obtain ⟨t₁, hrenumbered, t₂, hlog, hw⟩ := hw
    rw [← (Prod.mk.inj (Except.ok.inj hw)).1]
    have hvanished := foldl_keeps (l := vanished order before found)
      (P := Shrinking names free before (nextSequence p.tables).2) (.start hi h hrows)
      fun folder _ _ h => h.vanish folder
    have hrest := foldlM_keeps (P := Shrinking names free before (nextSequence p.tables).2)
      hvanished (fun _ _ _ _ h hr => h.renumber hr) hrenumbered
    exact (foldlM_keeps (P := Woven names free) hrest.woven
      (fun _ _ _ _ h hl => h.logged (log_frame hl)) hlog).logged (prune_frame t₂)

/-- **A `Mailbox/set`.** -/
theorem Woven.writeMailboxes (hi : Inv before) (h : Woven names free before)
    {changes : List MailboxChange} {states : Nat × Nat}
    (hw : writeMailboxes before changes = .ok (t, states)) : Woven names free t := by
  unfold Huliho.writeMailboxes at hw
  simp only [Except.bind_eq_ok] at hw
  obtain ⟨w, hloop, hw⟩ := hw
  obtain ⟨hsound, hemails, hwoven⟩ : Sound before w ∧ w.tables.emails = before.emails ∧
      Woven names free w.tables := by
    refine foldlM_keeps (P := fun w : Writing => Sound before w ∧
      w.tables.emails = before.emails ∧ Woven names free w.tables) ⟨Sound.start hi, rfl, h⟩
      (fun change _ w w' h hc => ?_) hloop
    refine ⟨h.1.mailboxChange hc, ?_⟩
    simp only [MailboxChange.written, Except.bind_eq_ok, pure, Except.pure, Except.ok.injEq] at hc
    obtain ⟨w₁, hr, rfl⟩ := hc
    have hrows := (MailboxChange.rows_mailboxes hr).1
    exact ⟨(by rw [hrows] : w₁.tables.emails = w.tables.emails).trans h.2.1,
      h.2.2.of_tables (by rw [hrows]) (by rw [hrows])⟩
  split at hw
  · exact (Prod.mk.inj (Except.ok.inj hw)).1 ▸ hwoven
  · rw [Except.bind_eq_ok] at hw
    obtain ⟨t₁, hl, hw⟩ := hw
    have hframe := (Ledger.logsUnder_write hl).frame
    have hnext : Woven names free (nextSequence w.tables).1 := hwoven.of_tables rfl rfl
    rw [← (Prod.mk.inj (Except.ok.inj hw)).1]
    refine (foldl_keeps (l := changes.filterMap MailboxChange.gone)
      (P := Shrinking names free before (nextSequence w.tables).2)
      ⟨hsound.opened hi.below hl, .of_emails ?_, by rw [hframe]; rfl, hnext.logged hframe⟩
      fun folder _ _ h => h.vanish folder).woven.logged (prune_frame _)
    rw [hframe]
    exact hemails

/-! ## A batch -/

/-- **A batch of a folder account.** -/
theorem Woven.writeBatch (hi : Inv before) (h : Woven names free before) {sealer : Sealer}
    {mint : Nat → Minted} {batch : Batch} {state : Option Nat}
    (hnames : ∀ id personal sealed, sealer.blob id personal = .ok sealed →
      ∀ hash, names id sealed hash ↔ hash ∈ namedHashes sealer personal)
    (hm : Minting mint batch.emails before) (hg : ∀ n, free (mint n).threadId)
    (hgmail : ∀ facts ∈ batch.emails, facts.gmail = none)
    (htells : ∀ facts ∈ batch.emails, ∀ r ∈ before.emails, r.folderId = batch.folder → r.uid < 0 →
      r.identity = facts.identity sealer →
        ∀ hash ∈ namedHashes sealer facts.personal, names r.id r.sealed hash)
    (hw : writeBatch sealer mint before batch = .ok (t, state)) : Woven names free t := by
  have hp := h.pinned ⟨batch.folder, batch.uidValidity⟩
  have hemails := pinned_emails before ⟨batch.folder, batch.uidValidity⟩
  have hstart : BatchInv before batch.folder mint batch.emails _ _ :=
    .start hi hm ⟨batch.folder, batch.uidValidity⟩
  rcases writeBatch_stages hw with ⟨rfl, -⟩ | ⟨-, b, hloop, hstages⟩
  · exact hp
  have hwaiting : ∀ identity id,
      (identity, id) ∈ unmatched (Huliho.pinned before ⟨batch.folder, batch.uidValidity⟩).1
        batch.folder → ∃ r ∈ before.emails, r.id = id ∧ r.folderId = batch.folder ∧ r.uid < 0 ∧
          r.identity = identity := by
    intro identity id hin
    obtain ⟨r, hr, heq⟩ := List.mem_map.1 hin
    obtain ⟨hr, hat⟩ := List.mem_filter.1 hr
    obtain ⟨rfl, rfl⟩ := Prod.mk.inj heq
    have hat := of_decide_eq_true hat
    exact ⟨r, hemails ▸ hr, rfl, hat.1, hat.2, rfl⟩
  revert hwaiting hloop hstart
  generalize unmatched (Huliho.pinned before ⟨batch.folder, batch.uidValidity⟩).1 batch.folder =
    waiting
  intro hstart hloop hwaiting
  have hwide : Woven (names.waiting sealer waiting batch.emails) free
      (Huliho.pinned before ⟨batch.folder, batch.uidValidity⟩).1 := by
    refine ⟨fun r hr hash hn => hp.points r hr hash ?_, hp.threads⟩
    rcases hn with hn | ⟨facts, hfacts, hin, hnamed⟩
    · exact hn
    · obtain ⟨s, hs, hid, hfolder, huid, hidentity⟩ := hwaiting _ _ hin
      rw [hemails] at hr
      obtain rfl := EmailRecord.eq_of_id hs hr hid
      exact htells facts hfacts s hs hfolder huid hidentity hash hnamed
  have hloop' := foldlM_rest
    (P := fun rest (b : Batching) => BatchInv before batch.folder mint batch.emails rest b ∧
      Woven (names.waiting sealer waiting batch.emails) free b.writing.tables ∧
        b.waiting ⊆ waiting)
    (fun p rest b b' hb hf => ⟨hb.1.turn hm hf, hb.2.1.writeFacts hnames hb.1.sound.hashes hb.2.2
      (hb.1.facts _ List.mem_cons_self) (hgmail _ (hb.1.facts _ List.mem_cons_self))
      (fun v hv hc => ?_) (hg p.2) hf⟩)
    ⟨hstart, hwide, List.Subset.refl _⟩ hloop
  swap
  · obtain ⟨r, hr, hid, -⟩ := hwaiting v.1 v.2 hv
    exact hm.ids p.2 r hr (hid.trans hc)
  obtain ⟨hend, hwoven, -⟩ := hloop'
  have hkept : Woven names free b.writing.tables :=
    ⟨fun r hr hash hn => hwoven.points r hr hash (.inl hn), hwoven.threads⟩
  have hsaved : Woven names free (save b.writing.tables batch.folder batch.advance).1 :=
    hkept.of_tables (save_emails _ _ _) (save_unseen _ _ _).messageIds
  rcases hstages with ⟨rfl, -⟩ | ⟨t₂, t₃, hledger, hlog, rfl⟩
  · exact hsaved
  obtain ⟨hlogged, hseq, -⟩ := hend.left hi
    (save b.writing.tables batch.folder batch.advance).2 hledger
  have hnext : Woven names free
      (nextSequence (save b.writing.tables batch.folder batch.advance).1).1 :=
    hsaved.of_tables rfl rfl
  have hwritten := hnext.logged (Ledger.logsUnder_write hledger).frame
  refine Woven.logged (Woven.logged ?_ (log_frame hlog)) (prune_frame t₃)
  rw [hseq] at hlogged ⊢
  revert hlogged
  split
  · exact hwritten.leave
  · exact fun _ => hwritten

end

end Huliho
