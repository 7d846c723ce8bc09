import Huliho.Store.Emails

/-!
# What a refresh writes

`refresh.rs`: the keywords that changed, the messages that left and how far the folder is synced,
on a folder whose first sync is done. Every write is one state and goes through only while the
folder stands under the UIDVALIDITY the refresh read it under.
-/

namespace Huliho

/-- The keywords one message carries now, and its labels where the server gave them. -/
structure FlagChange where
  uid : Nat
  keywords : Finset String
  labels : Option (List String)
deriving DecidableEq

/-- The UIDs the folder holds, lowest first. -/
def storedUids (t : Tables) (standing : Standing) : List Int :=
  ((t.emails.rows.filter fun r => r.folderId = standing.folder ∧ 0 < r.uid).map
    EmailRecord.uid).insertionSort (· ≤ ·)

/-- `UPDATE bridge_emails SET keywords = keywords WHERE folder_id = folder AND uid = uid`. -/
def EmailRecord.flag (folder : MailboxId) (uid : Nat) (keywords : Finset String)
    (r : EmailRecord) : EmailRecord :=
  if r.folderId = folder ∧ r.uid = uid then { r with keywords } else r

theorem EmailRecord.flag_apart (folder : MailboxId) (uid : Nat) (keywords : Finset String)
    (a b : EmailRecord) (h : a.Apart b) :
    (a.flag folder uid keywords).Apart (b.flag folder uid keywords) := by
  unfold EmailRecord.flag
  split <;> split <;> exact h

/-- Ends a write on one folder: with anything in the ledger a new state holds it and the mailbox
reads as updated. Answers the state the account stands at. -/
def close (w : Writing) (standing : Standing) : Except StoreError (Tables × Nat) :=
  if w.ledger.isEmpty then pure (w.tables, stateOf w.tables)
  else do
    let (t, sequence) := nextSequence w.tables
    let t ← w.ledger.write t sequence
    let t ← log t sequence (.mailbox, standing.folder) .updated
    pure (prune t, sequence)

/-- The keywords of one message, where they differ from its row. -/
def applyKeywords (folder : MailboxId) (w : Writing) (change : FlagChange) : Writing :=
  let updated := w.tables.emails.find? fun r =>
    r.folderId = folder ∧ r.uid = change.uid ∧ r.keywords ≠ change.keywords
  match updated with
  | some r =>
    { tables := { w.tables with
        emails := w.tables.emails.revise (EmailRecord.flag folder change.uid change.keywords)
          (EmailRecord.flag_apart _ _ _) }
      ledger := w.ledger.note (.email, r.id) .updated }
  | none => w

/-- The memberships of one message, where the server gave its labels and they say otherwise. -/
def applyLabels (folder : MailboxId) (labels : Labels) (w : Writing) (change : FlagChange) :
    Writing :=
  match change.labels, rowAt w.tables folder change.uid with
  | some found, some (id, receivedAt) => labels.relabel w ⟨id, folder, found, receivedAt⟩
  | _, _ => w

/-- The keywords of one message, then its memberships. -/
def applyFlag (folder : MailboxId) (labels : Labels) (w : Writing) (change : FlagChange) :
    Writing :=
  applyLabels folder labels (applyKeywords folder w change) change

/-- Writes the keywords that differ from the rows as one state, and the memberships where the
labels say otherwise; a UID the folder does not hold is skipped. -/
def applyFlags (t : Tables) (standing : Standing) (changes : List FlagChange) :
    Except StoreError (Tables × Option Nat) :=
  let (t, stands) := pinned t standing
  if !stands then pure (t, none)
  else do
    let labels := Labels.read t standing.folder
    let w := changes.foldl (applyFlag standing.folder labels) ⟨t, Table.empty⟩
    let (t, state) ← close w standing
    pure (t, some state)

/-- The row of the message destroyed with its memberships, its thread updated or destroyed. -/
def removeUid (folder : MailboxId) (w : Writing) (uid : Nat) : Writing :=
  match w.tables.emails.find? fun r => r.folderId = folder ∧ r.uid = uid with
  | none => w
  | some r =>
    let tables := { w.tables with
      emails := w.tables.emails.delete fun r => r.folderId = folder ∧ r.uid = uid
      memberships := w.tables.memberships.delete fun m => m.emailId = r.id }
    left ⟨tables, w.ledger.note (.email, r.id) .destroyed⟩ r.threadId

/-- Destroys the messages of these UIDs as one state, each thread updated or destroyed with its
last email. -/
def removeUids (t : Tables) (standing : Standing) (uids : List Nat) :
    Except StoreError (Tables × Option Nat) :=
  let (t, stands) := pinned t standing
  if !stands then pure (t, none)
  else do
    let w := uids.foldl (removeUid standing.folder) ⟨t, Table.empty⟩
    let (t, state) ← close w standing
    pure (t, some state)

/-- The progress row of the folder with the values the refresh learned. -/
def SyncRecord.learn (folder : MailboxId) (synced : Synced) (s : SyncRecord) : SyncRecord :=
  if s.folderId = folder then
    { s with
      uidNext := synced.uidNext.or s.uidNext
      highestModseq := synced.highestModseq.or s.highestModseq
      messages := synced.messages.or s.messages }
  else s

@[simp] theorem SyncRecord.learn_folderId (folder : MailboxId) (synced : Synced)
    (s : SyncRecord) : (s.learn folder synced).folderId = s.folderId := by
  unfold SyncRecord.learn
  split <;> rfl

theorem SyncRecord.learn_apart (folder : MailboxId) (synced : Synced) (a b : SyncRecord)
    (h : a.Apart b) : (a.learn folder synced).Apart (b.learn folder synced) := by
  simpa [SyncRecord.Apart] using h

/-- Records how far the refresh brought the folder; a value it did not learn keeps the one on
record. No state moves. -/
def advance (t : Tables) (standing : Standing) (synced : Synced) : Tables :=
  let (t, stands) := pinned t standing
  if !stands then t
  else
    { t with
      sync := t.sync.revise (SyncRecord.learn standing.folder synced)
        (SyncRecord.learn_apart _ _) }

end Huliho
