import Huliho.EmailSet.Plan
import Huliho.Store.Filed

/-!
# The emails of every store lie where their memberships say

The run of it. `Reachable.timed` needs nothing of the callers, so it holds of every reachable store.
`Driven` is the stores the program's own callers come to, and **`driven_laid`** is what holds of
those.

What the callers owe (`Write.Asked`) is what their code does: a UID is a `u32`; a label change is
one `plan.rs` planned over mailboxes that still stand when it is written, which the account's
conversation sees to, as every pass and every write of a client holds it; no mailbox a listing or a
create names is a store and a label (`Mailboxes.mapWithOverrides_store`); and the id of a created
mailbox is a new one.
-/

namespace Huliho

/-! ## What the callers owe -/

/-- A label change as `plan.rs` plans it, over mailboxes that stand. -/
def LabelChange.Planned (t : Tables) (change : LabelChange) : Prop :=
  ∃ rows row edit, (rows.map MailboxRow.id).Nodup ∧ (∀ b ∈ rows, HasMailbox t b.id) ∧
    row.folder = change.folder ∧
    EmailSet.mailboxes rows row edit = .ok (.labels ⟨change.add, change.remove⟩)

/-- **A planned label change** adds mailboxes of the account and leaves the email in its folder. -/
theorem LabelChange.Planned.asked {t : Tables} {change : LabelChange} (h : change.Planned t) :
    change.Asked t := by
  obtain ⟨rows, row, edit, hrows, hstand, hfolder, hplan⟩ := h
  obtain ⟨hknown, hlabels⟩ := EmailSet.mailboxes_ok hplan
  have hspec := EmailSet.labels_spec hrows (hlabels (EmailSet.labeled_of_labels hplan))
  generalize hp : EmailSet.Plan.labels ⟨change.add, change.remove⟩ = plan at hspec
  cases hspec with
  | labels stores here stays =>
    obtain ⟨hadd, hremove⟩ := EmailSet.Relabel.mk.inj (EmailSet.Plan.labels.inj hp)
    refine ⟨fun mailbox hm => ?_, fun hc => stays ?_⟩
    · rw [hadd] at hm
      have hin : mailbox ∈ edit.add :=
        EmailSet.mem_ordered.1 (List.mem_filter.1 (List.mem_filter.1 hm).1).1
      obtain ⟨b, hb, rfl⟩ := EmailSet.exists_of_known (hknown mailbox (List.mem_append_left _ hin))
      exact hstand b hb
    · rw [hremove, ← hfolder] at hc
      exact (List.mem_filter.1 hc).1
  | _ => cases hp

namespace Write

/-- What a write owes. -/
def Asked (t : Tables) : Write → Prop
  | .batch _ _ written => ∀ facts ∈ written.emails, facts.uid < UID_BOUND
  | .set _ asked => (∀ d ∈ asked.drafts, d.facts.uid < UID_BOUND) ∧
    (∀ change ∈ asked.moves, change.uid < UID_BOUND) ∧ ∀ change ∈ asked.labels, change.Planned t
  | .mailboxes _ _ found => ∀ facts ∈ found, Unlabelled facts
  | .pass _ _ read => ∀ facts ∈ read.found, Unlabelled facts
  | .mailboxSet changes => ∀ change ∈ changes, change.Asked t
  | _ => True

variable {moving : Option Moving} {t t' : Tables} {write : Write}

/-- **Every write that leaves the mailbox rows be is a walk.** -/
theorem walks (kept : Prop) (ha : kept → write.Asked t) (hs : kept → Stores t)
    (h : write.operation moving t = .ok t') :
    Walk kept t t' ∨ (∃ order mint found letters flipped state,
        apply order mint t found letters flipped = .ok (t', state) ∧
          (kept → ∀ facts ∈ found, Unlabelled facts)) ∨
      ∃ changes states, writeMailboxes t changes = .ok (t', states) ∧
        (kept → ∀ change ∈ changes, change.Asked t) := by
  cases write with
  | batch sealer mint batch =>
    obtain ⟨_, h⟩ := map_fst_eq_ok h
    exact .inl (.writeBatch h ha)
  | set generate set =>
    obtain ⟨_, h⟩ := map_fst_eq_ok h
    exact .inl (.writeSet h (fun hk => ⟨(ha hk).1, (ha hk).2.1,
      fun change hc => ((ha hk).2.2 change hc).asked⟩) hs)
  | mailboxes order mint found =>
    obtain ⟨_, h⟩ := map_fst_eq_ok h
    exact .inr (.inl ⟨order, mint, found, _, _, _, h, ha⟩)
  | pass order mint read =>
    obtain ⟨_, h⟩ := map_fst_eq_ok h
    exact .inr (.inl ⟨order, mint, read.found, _, _, _, h, ha⟩)
  | mailboxSet changes =>
    obtain ⟨_, h⟩ := map_fst_eq_ok h
    exact .inr (.inr ⟨changes, _, h, ha⟩)
  | flags standing changes =>
    obtain ⟨_, h⟩ := map_fst_eq_ok h
    exact .inl (.applyFlags h)
  | remove standing uids =>
    obtain ⟨_, h⟩ := map_fst_eq_ok h
    exact .inl (.removeUids h)
  | park standing uids =>
    obtain ⟨_, h⟩ := map_fst_eq_ok h
    exact .inl (.parkUids h)
  | sweep =>
    obtain ⟨_, h⟩ := map_fst_eq_ok h
    exact .inl (.sweepParked h)
  | advance standing synced =>
    rw [← Except.ok.inj h]
    exact .inl (.advance t standing synced)
  | previews preview previews =>
    obtain ⟨_, h⟩ := map_fst_eq_ok h
    exact .inl (.savePreviews h)

/-- **Any write keeps the times** the memberships carry. -/
theorem timed (ht : Timed t) (h : write.operation moving t = .ok t') : Timed t' := by
  rcases walks False (fun hk => hk.elim) (fun hk => hk.elim) h with
    hwalk | ⟨order, mint, found, letters, flipped, state, h, -⟩ | ⟨changes, states, h, -⟩
  · exact hwalk.timed ht
  · exact apply_timed ht h
  · exact writeMailboxes_timed ht h

/-- **A write that is asked as it should be keeps the emails filed.** -/
theorem filed (ha : write.Asked t) (ht : Filed [] t) (h : write.operation moving t = .ok t') :
    Filed [] t' := by
  rcases walks True (fun _ => ha) (fun _ => ht.stores) h with
    hwalk | ⟨order, mint, found, letters, flipped, state, h, hf⟩ | ⟨changes, states, h, hc⟩
  · exact hwalk.filed trivial ht
  · exact apply_filed ht (hf trivial) h
  · exact writeMailboxes_filed ht (hc trivial) h

end Write

/-! ## Every run -/

/-- **Every reachable store's memberships carry the times of their emails.** -/
theorem Reachable.timed {store : Store} (h : Reachable store) : Timed store.tables := by
  induction h with
  | fresh => exact fun _ h => absurd h Table.not_mem_empty
  | run h write hw ih =>
    rename_i store
    rcases store.run_cases write with ⟨tables, ho, hr⟩ | ⟨error, hr⟩
    · rw [hr]
      exact Write.timed ih ho
    · rw [hr]
      exact ih
  | forgotten _ ih => exact ih
  | reopened _ ih => exact ih

/-- The stores the program's own callers come to. -/
inductive Driven : Store → Prop
  | fresh : Driven Store.fresh
  | run {store : Store} (h : Driven store) (write : Write) (hw : write.Fresh store.tables)
      (ha : write.Asked store.tables) : Driven (store.run write).1
  /-- The host forgot the account. -/
  | forgotten {store : Store} (h : Driven store) :
      Driven { store with moving := none, forgotten := true }
  /-- The process started over. -/
  | reopened {store : Store} (h : Driven store) :
      Driven { store with moving := none, forgotten := false }

/-- The callers come to no store but a reachable one. -/
theorem Driven.reachable {store : Store} (h : Driven store) : Reachable store := by
  induction h with
  | fresh => exact .fresh
  | run _ write hw _ ih => exact .run ih write hw
  | forgotten _ ih => exact .forgotten ih
  | reopened _ ih => exact .reopened ih

theorem Driven.filed {store : Store} (h : Driven store) : Filed [] store.tables := by
  induction h with
  | fresh => exact Filed.empty
  | run _ write _ ha ih =>
    rename_i store _ _
    rcases store.run_cases write with ⟨tables, ho, hr⟩ | ⟨error, hr⟩
    · rw [hr]
      exact Write.filed ha ih ho
    · rw [hr]
      exact ih
  | forgotten _ ih => exact ih
  | reopened _ ih => exact ih

/-- Where the emails of a store lie is said once. -/
structure LaidOut (t : Tables) : Prop where
  /-- A membership names an email and a mailbox of the account and carries the time of the email. -/
  memberships : ∀ m ∈ t.memberships,
    (∃ r ∈ t.emails, r.id = m.emailId ∧ r.receivedAt = m.receivedAt) ∧
      ∃ b ∈ t.mailboxes, b.row.id = m.mailboxId
  /-- An email's own folder is a mailbox it is a member of. -/
  folders : ∀ r ∈ t.emails, (∃ b ∈ t.mailboxes, b.row.id = r.folderId) ∧
    ∃ m ∈ t.memberships, m.emailId = r.id ∧ m.mailboxId = r.folderId
  /-- One row holds a live UID of a folder. -/
  uids : ∀ r ∈ t.emails, ∀ s ∈ t.emails,
    0 < r.uid → r.folderId = s.folderId → r.uid = s.uid → r = s
  /-- One row holds a Gmail message id. -/
  msgids : ∀ r ∈ t.emails, ∀ s ∈ t.emails,
    r.gmailMsgid.isSome → r.gmailMsgid = s.gmailMsgid → r = s

theorem oneMessage_driven : Driven oneMessage := by
  have hfolder : Driven oneFolder := by
    refine .run .fresh (.mailboxes id (lettered 'm') [folderFacts "INBOX" (some "inbox") none])
      (listing_numbered (by decide) (by decide +kernel)) ?_
    simp [Write.Asked, Unlabelled, folderFacts]
  exact .run hfolder firstBatch firstBatch_fresh
    (by simp [Write.Asked, firstBatch, plainFacts, UID_BOUND])

end Huliho
