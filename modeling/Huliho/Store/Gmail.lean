import Huliho.Store.Folders

/-!
# Messages and the Gmail label model

`gmail.rs`: one row per X-GM-MSGID across the three stores, memberships from the labels of a row in
All Mail and rows that wait for the pass once their UID left a store. The facts of one message
(`emails.rs`, `personal.rs`) and the host's cryptography (`seal.rs`) stand here too, since a batch
and an arrival both read them.

The mailboxes a row is a member of are a `BTreeSet` in the code; here they are a list without
repetition, and only which mailboxes it names is ever compared.
-/

namespace Huliho

/-- The role the `\All` folder carries. -/
def ALL_MAIL_ROLE : String := "archive"

/-! ## One message before the store names it -/

/-- The ids the header of a message names; the other personal fields only ever reach the sealed
blob. -/
structure Personal where
  messageId : Option (List String)
  inReplyTo : Option (List String)
  references : Option (List String)
deriving DecidableEq, Repr

/-- Every message id the header names: its own, then the ones it answers and refers to. -/
def Personal.namedIds (personal : Personal) : List String :=
  [personal.messageId, personal.inReplyTo, personal.references].flatMap (·.getD [])

/-- The host's cryptography: the blob of a row, which may fail, and the keyed hash of a
Message-ID. -/
structure Sealer where
  blob : EmailId → Personal → Except StoreError Bytes
  keyedHash : String → Bytes

/-- The three items of one message on a Gmail account, each label once. -/
structure GmailFacts where
  labels : List String
  msgid : UInt64
  thrid : UInt64
deriving DecidableEq, Repr

/-- The thread the server names: `t` and the decimal id. -/
def GmailFacts.thread (gmail : GmailFacts) : ThreadId := "t" ++ toString gmail.thrid.toNat

/-- The id as the column holds it: the signed value of the same bits. -/
def GmailFacts.storedMsgid (gmail : GmailFacts) : Int := gmail.msgid.toBitVec.toInt

/-- What the sync knows about one message before the store names it. -/
structure EmailFacts where
  uid : Nat
  keywords : Finset String
  size : Nat
  receivedAt : Int
  sentAt : Option Int
  hasAttachment : Bool
  gmail : Option GmailFacts
  personal : Personal
deriving DecidableEq

/-! ## Labels -/

/-- The label mailboxes of an account by their label, and whether the folder written to shows the
labels of its rows: All Mail does, Spam and Trash do not. -/
structure Labels where
  byLabel : List (String × MailboxId)
  shown : Bool
deriving DecidableEq, Repr

/-- One row of a store folder with the labels the server gives it now. -/
structure Labeled where
  id : EmailId
  folder : MailboxId
  labels : List String
  receivedAt : Int
deriving DecidableEq, Repr

namespace Labels

def read (t : Tables) (folder : MailboxId) : Labels :=
  { byLabel := t.mailboxes.rows.filterMap fun r =>
      r.row.facts.gmailLabel.map fun label => (label, r.row.id)
    shown := ((t.mailboxes.find? fun r => r.row.id = folder ∧ r.row.facts.store).bind
      fun r => r.row.facts.role) = some ALL_MAIL_ROLE }

/-- The mailbox of a label; of two rows under one label the later one is kept. -/
def get (labels : Labels) (label : String) : Option MailboxId :=
  (labels.byLabel.reverse.find? fun e => e.1 = label).map Prod.snd

/-- The label mailbox a starred message of the folder is a member of, where the folder shows
labels. -/
def starred (labels : Labels) : Option MailboxId :=
  if labels.shown then labels.get "\\Flagged" else none

/-- The mailboxes a row of `folder` with these labels is a member of. -/
def memberships (labels : Labels) (folder : MailboxId) (found : List String) : List MailboxId :=
  (folder :: if labels.shown then found.filterMap labels.get else []).dedup

end Labels

/-! ## Memberships -/

/-- The mailboxes of an email. -/
def currentMemberships (t : Tables) (email : EmailId) : List MailboxId :=
  (t.memberships.rows.filter fun m => m.emailId = email).map Membership.mailboxId

/-- Two lists name the same mailboxes. -/
def SameMailboxes (a b : List MailboxId) : Prop := (∀ m ∈ a, m ∈ b) ∧ ∀ m ∈ b, m ∈ a

instance (a b : List MailboxId) : Decidable (SameMailboxes a b) :=
  inferInstanceAs (Decidable (_ ∧ _))

/-- The mailboxes one of the two names and the other does not. -/
def symmetricDifference (a b : List MailboxId) : List MailboxId :=
  (a.filter fun m => m ∉ b) ++ b.filter fun m => m ∉ a

/-- The memberships of a row replaced by `wanted`. Every old one is gone before the first goes in,
so no `INSERT` meets another. -/
def replaceMemberships (t : Tables) (id : EmailId) (receivedAt : Int) (wanted : List MailboxId) :
    Tables :=
  { t with
    memberships := wanted.foldl (fun ms mailbox => ms.offer ⟨id, mailbox, receivedAt⟩)
      (t.memberships.delete fun m => m.emailId = id) }

/-- Notes every mailbox whose counts moved, the folder of the write excepted: its line is the
caller's. -/
def noteMailboxes (ledger : Ledger) (touched : List MailboxId) (folder : MailboxId) : Ledger :=
  (touched.filter fun mailbox => mailbox ≠ folder).foldl
    (fun ledger mailbox => ledger.note (.mailbox, mailbox) .updated) ledger

/-- Brings the memberships of a row to what its labels say. When any moved the email reads as
updated and so does every mailbox whose counts moved, the folder excepted. -/
def Labels.relabel (labels : Labels) (w : Writing) (row : Labeled) : Writing :=
  let current := currentMemberships w.tables row.id
  let wanted := labels.memberships row.folder row.labels
  if SameMailboxes current wanted then w
  else
    { tables := replaceMemberships w.tables row.id row.receivedAt wanted
      ledger := (noteMailboxes w.ledger (symmetricDifference current wanted) row.folder).note
        (.email, row.id) .updated }

/-! ## Arrivals -/

/-- One message of a Gmail account on its way into the rows. -/
structure Arrival where
  folder : MailboxId
  facts : EmailFacts
  gmail : GmailFacts
  hash : Option Bytes
  labels : Labels

/-- The row that holds a message id. -/
def held (t : Tables) (msgid : Int) : Option EmailRecord :=
  t.emails.find? fun r => r.gmailMsgid = some msgid

/-- The columns the conflict branch of the arrival's upsert sets: all but the id and the message
id. -/
def EmailRecord.takes (record : EmailRecord) (r : EmailRecord) : EmailRecord :=
  if r.id = record.id then { record with gmailMsgid := r.gmailMsgid } else r

/-- `INSERT … ON CONFLICT (id) DO UPDATE`: the row of the id takes the new columns, an id without
a row gets one. -/
def upsertEmail (t : Tables) (record : EmailRecord) : Except StoreError Tables := do
  let emails ← constrained <|
    if (t.emails.find? fun r => r.id = record.id).isSome then t.emails.update? record.takes
    else t.emails.insert? record
  pure { t with emails }

namespace Arrival

/-- The row of the arrival under an id, in the thread the server names. -/
def record (a : Arrival) (id : EmailId) (sealed : Bytes) : EmailRecord :=
  { id
    folderId := a.folder
    uid := a.facts.uid
    threadId := a.gmail.thread
    keywords := a.facts.keywords
    size := a.facts.size
    receivedAt := a.facts.receivedAt
    sentAt := a.facts.sentAt
    hasAttachment := a.facts.hasAttachment
    messageIdHash := a.hash
    gmailMsgid := some a.gmail.storedMsgid
    sealed }

/-- The same folder holds another live UID under the id. -/
def Chases (a : Arrival) (row : EmailRecord) : Prop :=
  row.folderId = a.folder ∧ 0 < row.uid ∧ row.uid ≠ a.facts.uid

instance (a : Arrival) : DecidablePred a.Chases := fun _ => inferInstanceAs (Decidable (_ ∧ _ ∧ _))

/-- Writes the row of the arrival under `id`, which lay in `previous` where that thread is another
than the server names now, and its memberships from its labels. -/
def place (a : Arrival) (sealer : Sealer) (w : Writing) (id : EmailId) (kind : ChangeKind)
    (previous : Option ThreadId) : Except StoreError Writing := do
  let w := if kind = .created ∨ previous.isSome then claim w a.gmail.thread else w
  let sealed ← sealer.blob id a.facts.personal
  let tables ← upsertEmail w.tables (a.record id sealed)
  let w : Writing := { w with tables }
  let w := match previous with
    | some previous => left w previous
    | none => w
  let current := currentMemberships w.tables id
  let wanted := a.labels.memberships a.folder a.gmail.labels
  pure
    { tables := replaceMemberships w.tables id a.facts.receivedAt wanted
      ledger := noteMailboxes w.ledger (symmetricDifference current wanted) a.folder }

/-- Writes the message: a new row under the id `generated` in the thread the server names, or the
row that holds its id moved to where the message lies now. `none` when the same folder holds
another live UID under the id, so two rows never chase one another. -/
def write (a : Arrival) (sealer : Sealer) (generated : EmailId) (w : Writing) :
    Except StoreError (Writing × Option (EmailId × ChangeKind)) :=
  match held w.tables a.gmail.storedMsgid with
  | some row =>
    if a.Chases row then pure (w, none)
    else do
      -- A row that keeps its thread moves nothing inside it.
      let previous := if row.threadId = a.gmail.thread then none else some row.threadId
      let w ← a.place sealer w row.id .updated previous
      pure (w, some (row.id, .updated))
  | none => do
    let w ← a.place sealer w generated .created none
    pure (w, some (generated, .created))

end Arrival

/-! ## Parks and the sweep -/

/-- The row of a folder under a UID, with what orders its memberships. -/
def rowAt (t : Tables) (folder : MailboxId) (uid : Nat) : Option (EmailId × Int) :=
  (t.emails.find? fun r => r.folderId = folder ∧ r.uid = uid).map fun r => (r.id, r.receivedAt)

/-- `UPDATE bridge_emails SET uid = -uid WHERE folder_id = folder AND uid = uid`. -/
def EmailRecord.park (folder : MailboxId) (uid : Nat) (r : EmailRecord) : EmailRecord :=
  if r.folderId = folder ∧ r.uid = uid then { r with uid := -r.uid } else r

/-- Parks the messages of these UIDs: their rows wait under a negative UID for a store that holds
their id. Nothing is logged. `none` when the folder does not stand anymore. -/
def parkUids (t : Tables) (standing : Standing) (uids : List Nat) :
    Except StoreError (Tables × Option Unit) :=
  let (t, stands) := pinned t standing
  if !stands then pure (t, none)
  else do
    let t ← uids.foldlM (fun t uid => do
      let emails ← constrained (t.emails.update? (EmailRecord.park standing.folder uid))
      pure { t with emails }) t
    pure (t, some ())

/-- The stores whose first sync is done that hold a waiting row. -/
def waitingFolders (t : Tables) : List MailboxId :=
  (t.sync.rows.filter fun s => s.done ∧ ∃ e ∈ t.emails.rows, e.folderId = s.folderId ∧ e.uid < 0).map
    SyncRecord.folderId

/-- Destroys the rows that still wait in every store whose first sync is done, as one state; each
such store and every mailbox the rows were members of read as updated. -/
def sweepParked (t : Tables) : Except StoreError (Tables × Nat) :=
  let waiting := waitingFolders t
  if waiting = [] then pure (t, stateOf t)
  else do
    let (t, sequence) := nextSequence t
    let t ← waiting.foldlM (fun t folder =>
      log (leave t folder sequence .unmatched) sequence (.mailbox, folder) .updated) t
    pure (prune t, sequence)

end Huliho
