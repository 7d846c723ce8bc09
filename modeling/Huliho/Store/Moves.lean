import Huliho.Store.Refresh

/-!
# What one `Email/set` writes

`keywords.rs` and `moves.rs` with its children: what one `Email/set` changed on the server, written
to the rows as one state — the drafts it took, the keywords and labels a STORE gave and took, the
rows a move took to another folder and the rows whose message left. A row is written only where the
server found its message. On a Gmail account the Starred label mailbox and `$flagged` move
together.
-/

namespace Huliho

/-- The keywords a STORE gave to and took from the message of one email. -/
structure KeywordChange where
  id : EmailId
  folder : MailboxId
  uid : Nat
  add : List String
  remove : List String
deriving DecidableEq, Repr

/-- The label mailboxes a Gmail STORE gave to and took from the message of one email. -/
structure LabelChange where
  id : EmailId
  folder : MailboxId
  uid : Nat
  add : List MailboxId
  remove : List MailboxId
deriving DecidableEq, Repr

/-- One message a move took to another folder, and the labels the server gives it there, where
they were read. -/
structure MoveChange where
  id : EmailId
  fromFolder : MailboxId
  fromUid : Nat
  toFolder : MailboxId
  uidValidity : Nat
  uid : Nat
  labels : Option (List String)
deriving DecidableEq, Repr

/-- A row whose message left its folder. -/
structure GoneRow where
  id : EmailId
  folder : MailboxId
  uid : Nat
deriving DecidableEq, Repr

/-- A draft the server took under the UID `APPENDUID` named. -/
structure DraftRow where
  id : EmailId
  folder : MailboxId
  uidValidity : Nat
  facts : EmailFacts
  hash : Bytes
  named : List Bytes
  sealed : Bytes

/-- Everything one `Email/set` changed on the server. -/
structure SetWrite where
  gmail : Bool
  drafts : List DraftRow
  keywords : List KeywordChange
  labels : List LabelChange
  moves : List MoveChange
  gone : List GoneRow
  lost : List GoneRow

/-- An email as a write left it. -/
structure Written where
  mailboxes : List MailboxId
  keywords : Finset String
deriving DecidableEq

/-- What the write left behind. -/
structure SetWritten where
  before : Nat
  after : Nat
  stale : List EmailId
  emails : List (EmailId × Written)
  drafts : List EmailId
deriving DecidableEq

/-! ## Rows by their place -/

/-- The row of an id at a place. -/
def rowAtPlace (t : Tables) (id : EmailId) (folder : MailboxId) (uid : Nat) : Option EmailRecord :=
  t.emails.find? fun r => r.id = id ∧ r.folderId = folder ∧ r.uid = uid

/-- The row of an id. -/
def rowOf (t : Tables) (id : EmailId) : Option EmailRecord := t.emails.find? fun r => r.id = id

/-- `UPDATE bridge_emails SET keywords = keywords WHERE id = id`. -/
def EmailRecord.tag (id : EmailId) (keywords : Finset String) (r : EmailRecord) : EmailRecord :=
  if r.id = id then { r with keywords } else r

theorem EmailRecord.tag_apart (id : EmailId) (keywords : Finset String) (a b : EmailRecord)
    (h : a.Apart b) : (a.tag id keywords).Apart (b.tag id keywords) := by
  unfold EmailRecord.tag
  split <;> split <;> exact h

/-- The keywords of the row of an id replaced, the email noted as updated. -/
def tagged (w : Writing) (id : EmailId) (keywords : Finset String) : Writing :=
  { tables := { w.tables with
      emails := w.tables.emails.revise (EmailRecord.tag id keywords) (EmailRecord.tag_apart _ _) }
    ledger := w.ledger.note (.email, id) .updated }

/-- Every one of the mailboxes noted as updated. -/
def noteAll (ledger : Ledger) (mailboxes : List MailboxId) : Ledger :=
  mailboxes.foldl (fun ledger mailbox => ledger.note (.mailbox, mailbox) .updated) ledger

/-! ## Keywords -/

/-- The keywords of a row after a STORE. -/
def KeywordChange.on (change : KeywordChange) (keywords : Finset String) : Finset String :=
  (keywords \ change.remove.toFinset) ∪ change.add.toFinset

/-- One change on its row: the email reads as updated and so does every mailbox it is a member of.
`none` where the row was not there. -/
def KeywordChange.apply (change : KeywordChange) (w : Writing) : Option Writing :=
  match rowAtPlace w.tables change.id change.folder change.uid with
  | none => none
  | some r =>
    if change.on r.keywords = r.keywords then some w
    else
      let w := tagged w change.id (change.on r.keywords)
      some { w with ledger := noteAll w.ledger (currentMemberships w.tables change.id) }

/-! ## Memberships and stars -/

/-- The memberships of a row brought to `wanted`; when any moved the email reads as updated and so
does every mailbox whose counts moved. -/
def memberships (w : Writing) (id : EmailId) (receivedAt : Int)
    (current wanted : List MailboxId) : Writing :=
  if SameMailboxes current wanted then w
  else
    { tables := replaceMemberships w.tables id receivedAt wanted
      ledger := (noteAll w.ledger (symmetricDifference current wanted)).note (.email, id)
        .updated }

/-- The keyword a starred message carries. -/
def FLAGGED : String := "$flagged"

/-- When the row on its folder shows labels, the starred label mailbox follows its keyword. -/
def star (w : Writing) (id : EmailId) (folder : MailboxId) : Writing :=
  match (Labels.read w.tables folder).starred, rowOf w.tables id with
  | some starred, some r =>
    let current := currentMemberships w.tables id
    if (starred ∈ current) ↔ FLAGGED ∈ r.keywords then w
    else
      let wanted :=
        if FLAGGED ∈ r.keywords then current ++ [starred]
        else current.filter fun m => m ≠ starred
      memberships w id r.receivedAt current wanted
  | _, _ => w

/-- Sets or clears `$flagged` on the row. -/
def flagged (w : Writing) (id : EmailId) (on : Bool) : Writing :=
  match rowOf w.tables id with
  | none => w
  | some r =>
    if decide (FLAGGED ∈ r.keywords) = on then w
    else tagged w id (if on then Insert.insert FLAGGED r.keywords else r.keywords.erase FLAGGED)

/-- A label change on its row; the keyword of a starred message follows the starred label mailbox.
`none` where the row was not there. -/
def relabel (w : Writing) (change : LabelChange) : Option Writing :=
  match rowAtPlace w.tables change.id change.folder change.uid with
  | none => none
  | some r =>
    let current := currentMemberships w.tables change.id
    let wanted := ((current.filter fun m => m ∉ change.remove) ++ change.add).dedup
    let w := memberships w change.id r.receivedAt current wanted
    some <| match (Labels.read w.tables change.folder).starred with
      | none => w
      | some starred =>
        if starred ∈ change.add then flagged w change.id true
        else if starred ∈ change.remove then flagged w change.id false
        else w

/-! ## Rows that leave and rows that move -/

/-- A row whose message left: destroyed with its memberships, its thread updated or destroyed and
every mailbox it was a member of updated. -/
def leaveRow (w : Writing) (gone : GoneRow) : Writing :=
  match rowAtPlace w.tables gone.id gone.folder gone.uid with
  | none => w
  | some r =>
    let noted := noteAll w.ledger (currentMemberships w.tables gone.id)
    let tables := { w.tables with
      emails := w.tables.emails.delete fun r =>
        r.id = gone.id ∧ r.folderId = gone.folder ∧ r.uid = gone.uid
      memberships := w.tables.memberships.delete fun m => m.emailId = gone.id }
    left ⟨tables, noted.note (.email, gone.id) .destroyed⟩ r.threadId

/-- Negates the UID of the row where the message was. -/
def EmailRecord.parkRow (lost : GoneRow) (r : EmailRecord) : EmailRecord :=
  if r.id = lost.id ∧ r.folderId = lost.folder ∧ r.uid = lost.uid then { r with uid := -r.uid }
  else r

/-- A row whose message a move took where the write cannot follow it: on a Gmail account it waits
for the pass, elsewhere it leaves. -/
def lose (parks : Bool) (w : Writing) (lost : GoneRow) : Except StoreError Writing :=
  if parks then do
    let emails ← constrained (w.tables.emails.update? (EmailRecord.parkRow lost))
    pure { w with tables := { w.tables with emails } }
  else pure (leaveRow w lost)

/-- Where a moved row stands after its write. -/
inductive Placed
  | landed
  | stale
  | lost
deriving DecidableEq, Repr

/-- `UPDATE bridge_emails SET folder_id = to, uid = uid WHERE id = id`. -/
def EmailRecord.moveTo (change : MoveChange) (r : EmailRecord) : EmailRecord :=
  if r.id = change.id then { r with folderId := change.toFolder, uid := change.uid } else r

/-- A row moved to its new folder and UID, its memberships from the folder and the labels read
there. A folder that does not stand under the UIDVALIDITY of `COPYUID` or holds another row under
the new UID cannot take it: the row is lost to the write. -/
def moved (parks : Bool) (w : Writing) (change : MoveChange) :
    Except StoreError (Writing × Placed) :=
  match rowAtPlace w.tables change.id change.fromFolder change.fromUid with
  | none =>
    -- The header sync may have put it where the move took it.
    pure (w, if (rowAtPlace w.tables change.id change.toFolder change.uid).isSome then .landed
      else .stale)
  | some r => do
    let (t, stands) := pinned w.tables ⟨change.toFolder, change.uidValidity⟩
    let w : Writing := { w with tables := t }
    if !stands || holds t change.toFolder change.uid then
      let w ← lose parks w ⟨change.id, change.fromFolder, change.fromUid⟩
      pure (w, .lost)
    else
      let emails ← constrained (t.emails.update? (EmailRecord.moveTo change))
      let w : Writing := { w with tables := { t with emails } }
      let wanted := (Labels.read w.tables change.toFolder).memberships change.toFolder (change.labels.getD [])
      let current := currentMemberships w.tables change.id
      let w := memberships w change.id r.receivedAt current wanted
      let ledger := ((w.ledger.note (.mailbox, change.fromFolder) .updated).note
        (.mailbox, change.toFolder) .updated).note (.email, change.id) .updated
      pure ({ w with ledger }, .landed)

/-! ## Drafts -/

/-- The row of a draft, a new one in its thread with its one membership. A folder renumbered since
or one that holds another row under the UID leaves the draft to a pass. `generated` is the id
`ThreadId::generate` would answer. -/
def draft (generated : ThreadId) (w : Writing) (d : DraftRow) :
    Except StoreError (Writing × Bool) :=
  let (t, stands) := pinned w.tables ⟨d.folder, d.uidValidity⟩
  let w : Writing := { w with tables := t }
  if !stands || holds t d.folder d.facts.uid then pure (w, false)
  else do
    let (w, thread) := join w d.named generated
    let tables ← insert w.tables d.facts d.id d.folder (some d.hash) d.sealed thread
    pure (⟨tables, (w.ledger.note (.email, d.id) .created).note (.mailbox, d.folder) .updated⟩,
      true)

/-! ## The write -/

/-- The write with the ids it met on the way. -/
structure Setting where
  writing : Writing
  landed : List EmailId
  stale : List EmailId
  drafts : List EmailId

namespace Setting

def draft (generate : EmailId → ThreadId) (s : Setting) (d : DraftRow) :
    Except StoreError Setting := do
  let (writing, wentIn) ← Huliho.draft (generate d.id) s.writing d
  pure { s with writing, drafts := if wentIn then s.drafts ++ [d.id] else s.drafts }

def keywords (s : Setting) (change : KeywordChange) : Setting :=
  match change.apply s.writing with
  | some w => { s with writing := star w change.id change.folder, landed := s.landed ++ [change.id] }
  | none => { s with stale := s.stale ++ [change.id] }

def labels (s : Setting) (change : LabelChange) : Setting :=
  match relabel s.writing change with
  | some writing => { s with writing, landed := s.landed ++ [change.id] }
  | none => { s with stale := s.stale ++ [change.id] }

def moved (parks : Bool) (s : Setting) (change : MoveChange) : Except StoreError Setting := do
  let (writing, placed) ← Huliho.moved parks s.writing change
  pure <| match placed with
    | .landed => { s with writing, landed := s.landed ++ [change.id] }
    | .stale => { s with writing, stale := s.stale ++ [change.id] }
    | .lost => { s with writing }

end Setting

/-- Every kind of change of the write, in the order they are written. -/
def SetWrite.run (generate : EmailId → ThreadId) (set : SetWrite) (t : Tables) :
    Except StoreError Setting := do
  let s ← set.drafts.foldlM (Setting.draft generate) ⟨⟨t, Table.empty⟩, [], [], []⟩
  let s := set.keywords.foldl Setting.keywords s
  let s := set.labels.foldl Setting.labels s
  let s ← set.moves.foldlM (Setting.moved set.gmail) s
  let w := set.gone.foldl leaveRow s.writing
  let writing ← set.lost.foldlM (lose set.gmail) w
  pure { s with writing }

/-- An email as the write left it; `none` when it left. -/
def written (t : Tables) (id : EmailId) : Option (EmailId × Written) :=
  (rowOf t id).map fun r => (id, ⟨currentMemberships t id, r.keywords⟩)

/-- Writes what the server changed as one state. `generate` answers the id a draft's thread would
be given. -/
def writeSet (generate : EmailId → ThreadId) (t : Tables) (set : SetWrite) :
    Except StoreError (Tables × SetWritten) := do
  let before := stateOf t
  let s ← set.run generate t
  let (t, after) ←
    if s.writing.ledger.isEmpty then pure (s.writing.tables, before)
    else do
      let (t, sequence) := nextSequence s.writing.tables
      let t ← s.writing.ledger.write t sequence
      pure (prune t, sequence)
  pure (t, ⟨before, after, s.stale, s.landed.filterMap (written t), s.drafts⟩)

end Huliho
