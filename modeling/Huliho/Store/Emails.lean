import Huliho.Store.Gmail

/-!
# One batch of a folder's sync

`emails.rs`, `progress.rs` and `previews.rs`: what a sync batch writes as one state — the rows with
their memberships and threads, the progress and the log — and what the fetch of previews writes
into the blobs of those rows afterwards.

The ids `EmailId::generate` and `ThreadId::generate` would answer for the n-th message of a batch
are inputs (`Minted`): a turn of the loop asks for at most one of each.
-/

namespace Huliho

/-! ## Progress -/

/-- The values of the server a folder's cache answers for; a value never learned is `none`. -/
structure Synced where
  uidNext : Option Nat
  highestModseq : Option Nat
  messages : Option Nat
deriving DecidableEq, Repr

/-- How far a folder stands after a batch. -/
inductive Advance
  /-- The first sync, newest first. -/
  | down (lowestUid : Option Nat) (done : Bool) (synced : Synced)
  /-- New mail of a folder that is done, oldest first. -/
  | up (uidNext : Nat) (arrived : Nat)
  /-- Rows read beside both, for a draft. -/
  | beside
deriving DecidableEq, Repr

/-- The row after `UPDATE … SET uid_next = MAX(COALESCE(uid_next, 0), n), messages = messages + m`;
a count never learned stays unknown. -/
def SyncRecord.up (folder : MailboxId) (uidNext arrived : Nat) (s : SyncRecord) : SyncRecord :=
  if s.folderId = folder then
    { s with
      uidNext := some (max (s.uidNext.getD 0) uidNext)
      messages := s.messages.map (· + arrived) }
  else s

@[simp] theorem SyncRecord.up_folderId (folder : MailboxId) (n m : Nat) (s : SyncRecord) :
    (s.up folder n m).folderId = s.folderId := by
  unfold SyncRecord.up
  split <;> rfl

theorem SyncRecord.up_apart (folder : MailboxId) (n m : Nat) (a b : SyncRecord) (h : a.Apart b) :
    (a.up folder n m).Apart (b.up folder n m) := by
  simpa [SyncRecord.Apart] using h

/-- The row after the conflict branch of a first sync's write: the first write records the
server's values and every later one keeps them. -/
def SyncRecord.down (folder : MailboxId) (lowestUid : Option Nat) (done : Bool) (synced : Synced)
    (s : SyncRecord) : SyncRecord :=
  if s.folderId = folder then
    { s with
      lowestSyncedUid := lowestUid.or s.lowestSyncedUid
      done
      uidNext := if s.messages.isNone then synced.uidNext else s.uidNext
      highestModseq := if s.messages.isNone then synced.highestModseq else s.highestModseq
      messages := s.messages.or synced.messages }
  else s

@[simp] theorem SyncRecord.down_folderId (folder : MailboxId) (lowestUid : Option Nat)
    (done : Bool) (synced : Synced) (s : SyncRecord) :
    (s.down folder lowestUid done synced).folderId = s.folderId := by
  unfold SyncRecord.down
  split <;> rfl

theorem SyncRecord.down_apart (folder : MailboxId) (lowestUid : Option Nat) (done : Bool)
    (synced : Synced) (a b : SyncRecord) (h : a.Apart b) :
    (a.down folder lowestUid done synced).Apart (b.down folder lowestUid done synced) := by
  simpa [SyncRecord.Apart] using h

/-- Writes how far the folder stands; whether this write is the one that finishes its first
sync. -/
def save (t : Tables) (folder : MailboxId) (advance : Advance) : Tables × Bool :=
  match advance with
  | .up uidNext arrived =>
    ({ t with
        sync := t.sync.revise (SyncRecord.up folder uidNext arrived)
          (SyncRecord.up_apart _ _ _) }, false)
  | .beside => (t, false)
  | .down lowestUid done synced =>
    let wasDone := (t.sync.find? fun s => s.folderId = folder).map SyncRecord.done
    ({ t with
        sync := t.sync.upsert (SyncRecord.down folder lowestUid done synced)
          (SyncRecord.down_apart _ _ _ _)
          ⟨folder, lowestUid, done, synced.uidNext, synced.highestModseq, synced.messages⟩ },
      done && wasDone ≠ some true)

/-! ## The batch -/

/-- The ids the generators would answer for one message. -/
structure Minted where
  emailId : EmailId
  threadId : ThreadId
deriving DecidableEq, Repr

/-- One step of a folder's sync: the messages of one fetch and how far the folder stands after
them. -/
structure Batch where
  folder : MailboxId
  uidValidity : Nat
  emails : List EmailFacts
  advance : Advance

/-- Whether the folder holds a row under the UID. -/
def holds (t : Tables) (folder : MailboxId) (uid : Nat) : Bool :=
  (t.emails.find? fun r => r.folderId = folder ∧ r.uid = uid).isSome

/-- A new row in the thread its header names, with its one membership. -/
def insert (t : Tables) (facts : EmailFacts) (id : EmailId) (folder : MailboxId)
    (hash : Option Bytes) (sealed : Bytes) (thread : ThreadId) : Except StoreError Tables := do
  let emails ← constrained <| t.emails.insert?
    { id
      folderId := folder
      uid := facts.uid
      threadId := thread
      keywords := facts.keywords
      size := facts.size
      receivedAt := facts.receivedAt
      sentAt := facts.sentAt
      hasAttachment := facts.hasAttachment
      messageIdHash := hash
      gmailMsgid := none
      sealed }
  let memberships ← constrained (t.memberships.insert? ⟨id, folder, facts.receivedAt⟩)
  pure { t with emails, memberships }

/-- The columns of a waiting row that a match sets; the id, the thread and the place stay. -/
def EmailRecord.matched (facts : EmailFacts) (id : EmailId) (sealed : Bytes) (r : EmailRecord) :
    EmailRecord :=
  if r.id = id then
    { r with
      uid := facts.uid
      keywords := facts.keywords
      sentAt := facts.sentAt
      hasAttachment := facts.hasAttachment
      sealed }
  else r

/-- A waiting row under its new UID; the id, the thread and the membership stay. -/
def rewrite (t : Tables) (facts : EmailFacts) (id : EmailId) (sealed : Bytes) :
    Except StoreError Tables := do
  let emails ← constrained (t.emails.update? (EmailRecord.matched facts id sealed))
  pure { t with emails }

/-- The hashes of every id a header names, each once. -/
def namedHashes (sealer : Sealer) (personal : Personal) : List Bytes :=
  (personal.namedIds.map sealer.keyedHash).foldl
    (fun named hash => if hash ∈ named then named else named ++ [hash]) []

/-- The keyed hash of the message's own id. -/
def ownHash (sealer : Sealer) (personal : Personal) : Option Bytes :=
  (personal.messageId.bind List.head?).map sealer.keyedHash

/-- What names the message across a renumbering. -/
def EmailFacts.identity (sealer : Sealer) (facts : EmailFacts) : Identity :=
  (ownHash sealer facts.personal, facts.receivedAt, facts.size)

/-- What the loop of a batch carries from message to message. -/
structure Batching where
  writing : Writing
  waiting : List (Identity × EmailId)

/-- One message of a batch: skipped where the folder holds its UID, an arrival where it carries
its Gmail items, else the waiting row that matches it or a new row. -/
def writeFacts (sealer : Sealer) (mint : Nat → Minted) (folder : MailboxId) (labels : Labels)
    (b : Batching) (message : EmailFacts × Nat) : Except StoreError Batching :=
  let (facts, n) := message
  let w := b.writing
  if holds w.tables folder facts.uid then pure b
  else
    let hash := ownHash sealer facts.personal
    match facts.gmail with
    | some gmail => do
      let arrival : Arrival := { folder, facts, gmail, hash, labels }
      let (w, wrote) ← arrival.write sealer (mint n).emailId w
      let w := match wrote with
        | some (id, kind) => { w with ledger := w.ledger.note (.email, id) kind }
        | none => w
      pure { b with writing := w }
    | none => do
      let (matched, waiting) := popWaiting b.waiting (hash, facts.receivedAt, facts.size)
      match matched with
      | none =>
        let id := (mint n).emailId
        let sealed ← sealer.blob id facts.personal
        let (w, thread) := join w (namedHashes sealer facts.personal) (mint n).threadId
        let tables ← insert w.tables facts id folder hash sealed thread
        pure ⟨⟨tables, w.ledger.note (.email, id) .created⟩, waiting⟩
      | some id =>
        let sealed ← sealer.blob id facts.personal
        let tables ← rewrite w.tables facts id sealed
        pure ⟨⟨tables, w.ledger.note (.email, id) .updated⟩, waiting⟩

/-- Writes one batch as one state. `none` when the folder is gone or renumbered since the fetch.
After a renumbering a message keeps the id of the waiting row that matches it; what still waits
once the folder is done is destroyed. -/
def writeBatch (sealer : Sealer) (mint : Nat → Minted) (t : Tables) (batch : Batch) :
    Except StoreError (Tables × Option Nat) :=
  let (t, stands) := pinned t ⟨batch.folder, batch.uidValidity⟩
  if !stands then pure (t, none)
  else do
    let labels := Labels.read t batch.folder
    let b ← batch.emails.zipIdx.foldlM (writeFacts sealer mint batch.folder labels)
      ⟨⟨t, Table.empty⟩, unmatched t batch.folder⟩
    let (t, finished) := save b.writing.tables batch.folder batch.advance
    if b.writing.ledger.isEmpty && !finished then pure (t, some (stateOf t))
    else do
      let (t, sequence) := nextSequence t
      -- The ledger first: what leaves below folds onto its rows.
      let t ← b.writing.ledger.write t sequence
      let t := if finished then leave t batch.folder sequence .unmatched else t
      let t ← log t sequence (.mailbox, batch.folder) .updated
      pure (prune t, some sequence)

/-! ## Previews -/

/-- `UPDATE bridge_emails SET sealed = sealed WHERE id = id`. -/
def EmailRecord.reseal (id : EmailId) (sealed : Bytes) (r : EmailRecord) : EmailRecord :=
  if r.id = id then { r with sealed } else r

theorem EmailRecord.reseal_apart (id : EmailId) (sealed : Bytes) (a b : EmailRecord)
    (h : a.Apart b) : (a.reseal id sealed).Apart (b.reseal id sealed) := by
  unfold EmailRecord.reseal
  split <;> split <;> exact h

/-- One preview kept in the blob of its row. `preview id text blob` is the blob opened, given the
preview and sealed again: `none` where it does not open, in which case the row is skipped. -/
def savePreview (preview : EmailId → String → Bytes → Option (Except StoreError Bytes))
    (w : Writing) (saved : EmailId × String) : Except StoreError Writing :=
  match (w.tables.emails.find? fun r => r.id = saved.1).bind
      fun r => preview saved.1 saved.2 r.sealed with
  | none => pure w
  | some resealed => do
    let sealed ← resealed
    pure
      { tables := { w.tables with
          emails := w.tables.emails.revise (EmailRecord.reseal saved.1 sealed)
            (EmailRecord.reseal_apart _ _) }
        ledger := w.ledger.note (.email, saved.1) .updated }

/-- Keeps the previews in the blobs of their rows as one state, each email logged as updated. -/
def savePreviews (preview : EmailId → String → Bytes → Option (Except StoreError Bytes))
    (t : Tables) (previews : List (EmailId × String)) : Except StoreError (Tables × Nat) := do
  let w ← previews.foldlM (savePreview preview) ⟨t, Table.empty⟩
  if w.ledger.isEmpty then pure (w.tables, stateOf w.tables)
  else do
    let (t, sequence) := nextSequence w.tables
    let t ← w.ledger.write t sequence
    pure (prune t, sequence)

end Huliho
