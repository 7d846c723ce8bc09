import Mathlib.Data.Finset.Basic
import Mathlib.Order.Basic
import Huliho.Lib.Table
import Huliho.Lib.Journal

/-!
# The tables of the bridge

The rows one account has in the seven tables of `schema.sql` (with the columns the two later
migrations add). Every statement of the store is scoped by `account_key = ?1`, so the model holds
one account's slice and drops that column. The constraints of the schema are the `Apart` relations
of `Huliho.Table`: a value of `Tables` violates none of them, whatever wrote it.

The ids are opaque text (`ids.rs`). A UID is the `INTEGER` of its column: positive for a message
the server names, negative for a row that waits — for its match after a renumbering, or for the
store that holds its X-GM-MSGID.
-/

namespace Huliho

abbrev MailboxId := String
abbrev EmailId := String
abbrev ThreadId := String

/-- A column of bytes: a keyed hash or a sealed blob. -/
abbrev Bytes := List UInt8

/-- The objects the log speaks of. -/
inductive ObjectType
  | mailbox
  | email
  | thread
deriving DecidableEq, Repr

/-- One object of the log: its type and its id. -/
abbrev Slot := ObjectType × String

/-- Why a write did not go through: a constraint of the schema, a value that could not be encoded,
a host that could not seal, or a forgotten account. -/
inductive StoreError
  | database
  | encoding
  | seal
  | forgotten
deriving DecidableEq, Repr

/-! ## Mailboxes -/

/-- What one listing pass knows about a mailbox before the store names its row. -/
structure MailboxFacts where
  name : String
  imapName : String
  parentImapName : Option String
  role : Option String
  sortOrder : Nat
  subscribed : Bool
  selectable : Bool
  store : Bool
  gmailLabel : Option String
  uidValidity : Option Nat
  uidNext : Option Nat
  highestModseq : Option Nat
  totalEmails : Nat
  unreadEmails : Nat
deriving DecidableEq, Repr

/-- A mailbox as the table holds it. -/
structure MailboxRow where
  id : MailboxId
  parentId : Option MailboxId
  facts : MailboxFacts
deriving DecidableEq, Repr

/-- A row of `bridge_mailboxes`: the fifteen columns of a `MailboxRow` and the two a
`Mailbox/set` and MYRIGHTS fill. -/
structure MailboxRecord where
  row : MailboxRow
  roleOverride : Option String
  rights : Option String
deriving DecidableEq, Repr

/-- `PRIMARY KEY (id)` and `UNIQUE (imap_name)`. -/
def MailboxRecord.Apart (a b : MailboxRecord) : Prop :=
  a.row.id ≠ b.row.id ∧ a.row.facts.imapName ≠ b.row.facts.imapName

instance : DecidableRel MailboxRecord.Apart := fun _ _ => inferInstanceAs (Decidable (_ ∧ _))
instance : Std.Symm MailboxRecord.Apart := ⟨fun _ _ h => ⟨h.1.symm, h.2.symm⟩⟩

/-! ## Emails -/

/-- A row of `bridge_emails`. A keyword a row carries is always `true` in its JSON object, so the
object is the set of its keys. -/
structure EmailRecord where
  id : EmailId
  folderId : MailboxId
  uid : Int
  threadId : ThreadId
  keywords : Finset String
  size : Nat
  receivedAt : Int
  sentAt : Option Int
  hasAttachment : Bool
  messageIdHash : Option Bytes
  gmailMsgid : Option Int
  sealed : Bytes
deriving DecidableEq

/-- `PRIMARY KEY (id)`, `UNIQUE (folder_id, uid)` and the unique index over `gmail_msgid` where it
is not null. -/
def EmailRecord.Apart (a b : EmailRecord) : Prop :=
  a.id ≠ b.id ∧ ¬(a.folderId = b.folderId ∧ a.uid = b.uid) ∧
    ¬(a.gmailMsgid.isSome ∧ a.gmailMsgid = b.gmailMsgid)

instance : DecidableRel EmailRecord.Apart := fun _ _ => inferInstanceAs (Decidable (_ ∧ _ ∧ _))
instance : Std.Symm EmailRecord.Apart :=
  ⟨fun _ _ h => ⟨h.1.symm, fun ⟨hf, hu⟩ => h.2.1 ⟨hf.symm, hu.symm⟩,
    fun ⟨hs, he⟩ => h.2.2 ⟨he ▸ hs, he.symm⟩⟩⟩

/-- A row of `bridge_memberships`. -/
structure Membership where
  emailId : EmailId
  mailboxId : MailboxId
  receivedAt : Int
deriving DecidableEq, Repr

/-- `PRIMARY KEY (email_id, mailbox_id)`. -/
def Membership.Apart (a b : Membership) : Prop :=
  ¬(a.emailId = b.emailId ∧ a.mailboxId = b.mailboxId)

instance : DecidableRel Membership.Apart := fun _ _ => inferInstanceAs (Decidable (¬ _))
instance : Std.Symm Membership.Apart := ⟨fun _ _ h => fun ⟨he, hm⟩ => h ⟨he.symm, hm.symm⟩⟩

/-- A row of `bridge_message_ids`: the thread a keyed hash of a message id points at. -/
structure MessageIdRecord where
  messageIdHash : Bytes
  threadId : ThreadId
deriving DecidableEq, Repr

/-- `PRIMARY KEY (message_id_hash)`. -/
def MessageIdRecord.Apart (a b : MessageIdRecord) : Prop := a.messageIdHash ≠ b.messageIdHash

instance : DecidableRel MessageIdRecord.Apart := fun _ _ => inferInstanceAs (Decidable (¬ _))
instance : Std.Symm MessageIdRecord.Apart := ⟨fun _ _ h => Ne.symm h⟩

/-! ## Progress and the log -/

/-- A row of `bridge_sync`: how far a folder stands. -/
structure SyncRecord where
  folderId : MailboxId
  lowestSyncedUid : Option Nat
  done : Bool
  uidNext : Option Nat
  highestModseq : Option Nat
  messages : Option Nat
deriving DecidableEq, Repr

/-- `PRIMARY KEY (folder_id)`. -/
def SyncRecord.Apart (a b : SyncRecord) : Prop := a.folderId ≠ b.folderId

instance : DecidableRel SyncRecord.Apart := fun _ _ => inferInstanceAs (Decidable (¬ _))
instance : Std.Symm SyncRecord.Apart := ⟨fun _ _ h => Ne.symm h⟩

/-- A row of `bridge_changes`. -/
structure LogRow where
  sequence : Nat
  object : ObjectType
  id : String
  kind : ChangeKind
deriving DecidableEq, Repr

/-- `PRIMARY KEY (sequence, type, id)`. -/
def LogRow.Apart (a b : LogRow) : Prop :=
  ¬(a.sequence = b.sequence ∧ a.object = b.object ∧ a.id = b.id)

instance : DecidableRel LogRow.Apart := fun _ _ => inferInstanceAs (Decidable (¬ _))
instance : Std.Symm LogRow.Apart :=
  ⟨fun _ _ h => fun ⟨hs, ho, hi⟩ => h ⟨hs.symm, ho.symm, hi.symm⟩⟩

/-- The object a row of the log speaks of. -/
def LogRow.slot (row : LogRow) : Slot := (row.object, row.id)

/-! ## One account -/

/-- The rows of one account. `sequence` is the counter of `bridge_state`, zero while the account
has no row there. -/
structure Tables where
  mailboxes : Table MailboxRecord.Apart
  emails : Table EmailRecord.Apart
  memberships : Table Membership.Apart
  messageIds : Table MessageIdRecord.Apart
  sync : Table SyncRecord.Apart
  sequence : Nat
  changes : Table LogRow.Apart

/-- The account before its first write. -/
def Tables.empty : Tables :=
  ⟨Table.empty, Table.empty, Table.empty, Table.empty, Table.empty, 0, Table.empty⟩

/-- A statement's outcome: a constraint that was hit is the database's error. -/
def constrained {α : Type*} : Option α → Except StoreError α
  | some a => .ok a
  | none => .error .database

@[simp] theorem constrained_eq_ok {α : Type*} {o : Option α} {a : α} :
    constrained o = .ok a ↔ o = some a := by
  cases o <;> simp [constrained]

/-- A fallible step followed by another goes through when both do. -/
@[simp] theorem Except.bind_eq_ok {ε α β : Type} {x : Except ε α} {f : α → Except ε β} {b : β} :
    x >>= f = .ok b ↔ ∃ a, x = .ok a ∧ f a = .ok b := by
  cases x <;> simp [bind, Except.bind]

/-! ## What the constraints say -/

theorem EmailRecord.eq_of_id {t : Table EmailRecord.Apart} {a b : EmailRecord} (ha : a ∈ t)
    (hb : b ∈ t) (h : a.id = b.id) : a = b :=
  t.unique ha hb fun hab => hab.1 h

theorem EmailRecord.eq_of_uid {t : Table EmailRecord.Apart} {a b : EmailRecord} (ha : a ∈ t)
    (hb : b ∈ t) (hf : a.folderId = b.folderId) (hu : a.uid = b.uid) : a = b :=
  t.unique ha hb fun hab => hab.2.1 ⟨hf, hu⟩

theorem MailboxRecord.eq_of_id {t : Table MailboxRecord.Apart} {a b : MailboxRecord} (ha : a ∈ t)
    (hb : b ∈ t) (h : a.row.id = b.row.id) : a = b :=
  t.unique ha hb fun hab => hab.1 h

theorem MailboxRecord.eq_of_imapName {t : Table MailboxRecord.Apart} {a b : MailboxRecord}
    (ha : a ∈ t) (hb : b ∈ t) (h : a.row.facts.imapName = b.row.facts.imapName) : a = b :=
  t.unique ha hb fun hab => hab.2 h

end Huliho
