import Huliho.Store.Moves

/-!
# Mailbox passes and mailbox writes

`mailboxes.rs`, `mailboxes/rights.rs` and `mailboxes/set.rs`: what a listing pass writes and what a
`Mailbox/set` did on the server.

Three things the code takes from outside the tables are inputs: the id `MailboxId::generate` would
answer for a new wire name (`mint`), the order a `HashMap` answers its values in (`order`, some
permutation of them) and the letters MYRIGHTS named.
-/

namespace Huliho

/-- The commands the server offers for moving mail. -/
structure Moving where
  moveCommand : Bool
  uidplus : Bool
deriving DecidableEq, Repr

/-- The letters MYRIGHTS named, by wire name; `none` where the server advertises no ACL. -/
abbrev Letters := Option (String → Option String)

/-- One mailbox pass as the store writes it. -/
structure Pass where
  found : List MailboxFacts
  moving : Moving
  rights : Letters

/-! ## Rows -/

/-- The row of a wire name. -/
def existing (t : Tables) (imapName : String) : Option MailboxRecord :=
  t.mailboxes.find? fun r => r.row.facts.imapName = imapName

/-- The columns an upsert sets: every one but the two a `Mailbox/set` and MYRIGHTS fill. -/
def MailboxRecord.takes (row : MailboxRow) (r : MailboxRecord) : MailboxRecord :=
  if r.row.id = row.id then { r with row } else r

/-- `INSERT … ON CONFLICT (id) DO UPDATE`; the parent's wire name is not a column. -/
def upsert (t : Tables) (row : MailboxRow) : Except StoreError Tables := do
  let row := { row with facts.parentImapName := none }
  let mailboxes ← constrained <|
    if (t.mailboxes.find? fun r => r.row.id = row.id).isSome then
      t.mailboxes.update? (MailboxRecord.takes row)
    else t.mailboxes.insert? ⟨row, none, none⟩
  pure { t with mailboxes }

/-! ## The plan of a pass -/

/-- The id of a wire name: the one on record, a generated one for a new name. -/
def idOf (mint : String → MailboxId) (t : Tables) (imapName : String) : MailboxId :=
  ((existing t imapName).map fun r => r.row.id).getD (mint imapName)

/-- The names a listing holds, each once. -/
def foundNames (found : List MailboxFacts) : List String := (found.map MailboxFacts.imapName).dedup

/-- The row a pass wants for the facts of one mailbox. A pass that learned no UIDVALIDITY keeps
the one on record. -/
def wantedRow (mint : String → MailboxId) (t : Tables) (found : List MailboxFacts)
    (facts : MailboxFacts) : MailboxRow :=
  { id := idOf mint t facts.imapName
    parentId := facts.parentImapName.bind fun parent =>
      if parent ∈ foundNames found then some (idOf mint t parent) else none
    facts := { facts with
      parentImapName := none
      uidValidity := facts.uidValidity.or
        ((existing t facts.imapName).bind fun r => r.row.facts.uidValidity) } }

/-- A UIDVALIDITY that differs from the one on record: every UID the folder's rows hold names
nothing anymore. -/
def WasRenumbered (current found : MailboxRow) : Prop :=
  current.facts.uidValidity.isSome ∧ found.facts.uidValidity.isSome ∧
    current.facts.uidValidity ≠ found.facts.uidValidity

instance (current found : MailboxRow) : Decidable (WasRenumbered current found) :=
  inferInstanceAs (Decidable (_ ∧ _ ∧ _))

/-- A pass on its way: the rows so far, the mailboxes it changed and the folders it found
renumbered. -/
structure Passing where
  tables : Tables
  changes : List (MailboxId × ChangeKind)
  renumbered : List MailboxId

/-- The row of one found mailbox, written where it is new or differs. -/
def passFacts (mint : String → MailboxId) (before : Tables) (found : List MailboxFacts)
    (p : Passing) (facts : MailboxFacts) : Except StoreError Passing :=
  let row := wantedRow mint before found facts
  match existing before facts.imapName with
  | some current =>
    if current.row = row then pure p
    else do
      let tables ← upsert p.tables row
      let renumbered :=
        if WasRenumbered current.row row then p.renumbered ++ [row.id] else p.renumbered
      pure ⟨tables, p.changes ++ [(row.id, .updated)], renumbered⟩
  | none => do
    let tables ← upsert p.tables row
    pure { p with tables, changes := p.changes ++ [(row.id, .created)] }

/-- The row with its letters. -/
def MailboxRecord.lettered (letters : Option String) (r : MailboxRecord) : MailboxRecord :=
  { r with rights := letters }

theorem MailboxRecord.lettered_apart (id : MailboxId) (letters : Option String)
    (a b : MailboxRecord) (h : a.Apart b) :
    (a.onId id (MailboxRecord.lettered letters)).Apart
      (b.onId id (MailboxRecord.lettered letters)) := by
  unfold MailboxRecord.onId
  split <;> split <;> exact h

/-- The letters of one name brought to what the pass read; whether they moved. -/
def applyRights (t : Tables) (name : String) (id : MailboxId) (letters : Letters) :
    Tables × Bool :=
  let heldLetters := (existing t name).bind MailboxRecord.rights
  let wanted := letters.bind fun read => read name
  if wanted = heldLetters then (t, false)
  else
    ({ t with
        mailboxes := t.mailboxes.revise (MailboxRecord.onId id (MailboxRecord.lettered wanted))
          (MailboxRecord.lettered_apart _ _) }, true)

/-- A change the pass notes where it has not noted the mailbox yet. -/
def addChange (changes : List (MailboxId × ChangeKind)) (id : MailboxId) (kind : ChangeKind) :
    List (MailboxId × ChangeKind) :=
  if changes.any fun c => c.1 = id then changes else changes ++ [(id, kind)]

/-- The letters of every found name, and the mailboxes whose letters moved among the changes. -/
def passRights (mint : String → MailboxId) (before : Tables) (found : List MailboxFacts)
    (letters : Letters) (p : Passing) : Passing :=
  (foundNames found).foldl (fun p name =>
    let id := idOf mint before name
    let (tables, moved) := applyRights p.tables name id letters
    { p with tables, changes := if moved then addChange p.changes id .updated else p.changes }) p

/-- The mailboxes the listing does not name anymore, in the order the pass meets them. -/
def vanished (order : List MailboxId → List MailboxId) (t : Tables) (found : List MailboxFacts) :
    List MailboxId :=
  order ((t.mailboxes.rows.filter fun r => r.row.facts.imapName ∉ foundNames found).map
    fun r => r.row.id)

/-- The rows of the vanished mailboxes deleted, each a change. -/
def passVanished (gone : List MailboxId) (p : Passing) : Passing :=
  gone.foldl (fun p id =>
    { p with
      tables := { p.tables with mailboxes := p.tables.mailboxes.delete fun r => r.row.id = id }
      changes := p.changes ++ [(id, .destroyed)] }) p

/-- With new rights every found mailbox reads as updated. -/
def passFlipped (mint : String → MailboxId) (before : Tables) (found : List MailboxFacts)
    (flipped : Bool) (p : Passing) : Passing :=
  if flipped then
    { p with
      changes := (foundNames found).foldl
        (fun changes name => addChange changes (idOf mint before name) .updated) p.changes }
  else p

/-- The rows and letters of a pass written and its changes collected, before anything is
logged. -/
def planPass (order : List MailboxId → List MailboxId) (mint : String → MailboxId) (t : Tables)
    (found : List MailboxFacts) (letters : Letters) (flipped : Bool) :
    Except StoreError Passing := do
  let p ← found.foldlM (passFacts mint t found) ⟨t, [], []⟩
  let p := passRights mint t found letters p
  let p := passVanished (vanished order t found) p
  pure (passFlipped mint t found flipped p)

/-- The pass's rows and letters written; with `flipped` every mailbox the pass found reads as
updated. -/
def apply (order : List MailboxId → List MailboxId) (mint : String → MailboxId) (t : Tables)
    (found : List MailboxFacts) (letters : Letters) (flipped : Bool) :
    Except StoreError (Tables × Nat) := do
  let p ← planPass order mint t found letters flipped
  if p.changes = [] then pure (p.tables, stateOf p.tables)
  else
    let (t', sequence) := nextSequence p.tables
    let t' := (vanished order t found).foldl (fun t id => vanish t id sequence) t'
    let t' ← p.renumbered.foldlM (fun t id => renumber t id sequence) t'
    let t' ← p.changes.foldlM (fun t c => log t sequence (.mailbox, c.1) c.2) t'
    pure (prune t', sequence)

/-! ## What a `Mailbox/set` did -/

/-- The role the user set on a mailbox. -/
inductive RoleOverride
  | role (name : String)
  | noRole
deriving DecidableEq, Repr

/-- The role the mailbox carries under the override. -/
def RoleOverride.get : RoleOverride → Option String
  | .role name => some name
  | .noRole => none

/-- How the column spells it: an override of no role is the empty text. -/
def RoleOverride.column (role : RoleOverride) : String := role.get.getD ""

/-- One change a `Mailbox/set` made on the server. -/
inductive MailboxChange
  | created (row : MailboxRow) (role : Option RoleOverride)
  | renamed (id : MailboxId) (imapName name : String) (parentId : Option MailboxId)
  | subscribed (id : MailboxId) (subscribed : Bool)
  | role (id : MailboxId) (role : RoleOverride) (sortOrder : Nat)
  | destroyed (id : MailboxId)
deriving DecidableEq, Repr

/-- An `UPDATE` of the row of one id that no constraint reads. -/
def updateMailbox (t : Tables) (id : MailboxId) (f : MailboxRecord → MailboxRecord)
    (hf : ∀ a b : MailboxRecord, a.Apart b → (a.onId id f).Apart (b.onId id f)) : Tables :=
  { t with mailboxes := t.mailboxes.revise (MailboxRecord.onId id f) hf }

/-- Columns beside the id and the wire name. -/
def MailboxRecord.Beside (f : MailboxRecord → MailboxRecord) : Prop :=
  ∀ r, (f r).row.id = r.row.id ∧ (f r).row.facts.imapName = r.row.facts.imapName

theorem MailboxRecord.Beside.apart {f : MailboxRecord → MailboxRecord}
    (hf : MailboxRecord.Beside f) (id : MailboxId) (a b : MailboxRecord) (h : a.Apart b) :
    (a.onId id f).Apart (b.onId id f) := by
  unfold MailboxRecord.onId
  split <;> split <;> simp only [MailboxRecord.Apart, hf a, hf b] <;> exact h

/-- The mailboxes under one, itself among them, found through the parents: what `steps` rounds of
the recursive query reach. -/
def tree (t : Tables) (id : MailboxId) : Nat → List MailboxId
  | 0 => [id]
  | steps + 1 =>
    let reached := tree t id steps
    (reached ++ (t.mailboxes.rows.filter fun r => ∃ p ∈ reached, r.row.parentId = some p).map
      fun r => r.row.id).dedup

/-- What is left of a text behind a prefix. -/
def stripPrefix (text lead : String) : Option String :=
  if lead.toList.isPrefixOf text.toList then some (String.ofList (text.toList.drop lead.length))
  else none

/-- The row under a new wire name; a user label of a Gmail account, which is its wire name,
follows it. -/
def MailboxRecord.rewire (id : MailboxId) (wire : String) (r : MailboxRecord) : MailboxRecord :=
  if r.row.id = id then
    { r with
      row.facts.imapName := wire
      row.facts.gmailLabel :=
        if r.row.facts.gmailLabel = some r.row.facts.imapName then some wire
        else r.row.facts.gmailLabel }
  else r

/-- The row and every row under it take the new wire name in place of the old one in front. -/
def renamed (w : Writing) (id : MailboxId) (imapName : String) : Except StoreError Writing :=
  let members := tree w.tables id w.tables.mailboxes.rows.length
  let rows := (w.tables.mailboxes.rows.filter fun r => r.row.id ∈ members).map
    fun r => (r.row.id, r.row.facts.imapName)
  match rows.find? fun r => r.1 = id with
  | none => pure w
  | some (_, old) =>
    rows.foldlM (fun w member =>
      match stripPrefix member.2 old with
      | none => pure w
      | some rest => do
        let mailboxes ← constrained
          (w.tables.mailboxes.update? (MailboxRecord.rewire member.1 (imapName ++ rest)))
        pure ⟨{ w.tables with mailboxes }, w.ledger.note (.mailbox, member.1) .updated⟩) w

/-- The role override of a row. -/
def MailboxRecord.overridden (role : String) (r : MailboxRecord) : MailboxRecord :=
  { r with roleOverride := some role }

theorem MailboxRecord.overridden_beside (role : String) :
    MailboxRecord.Beside (MailboxRecord.overridden role) := fun _ => ⟨rfl, rfl⟩

/-- The leaf and the parent of a row. -/
def MailboxRecord.placedUnder (name : String) (parentId : Option MailboxId) (r : MailboxRecord) :
    MailboxRecord :=
  { r with row.facts.name := name, row.parentId := parentId }

theorem MailboxRecord.placedUnder_beside (name : String) (parentId : Option MailboxId) :
    MailboxRecord.Beside (MailboxRecord.placedUnder name parentId) := fun _ => ⟨rfl, rfl⟩

/-- The subscription of a row. -/
def MailboxRecord.subscribe (subscribed : Bool) (r : MailboxRecord) : MailboxRecord :=
  { r with row.facts.subscribed := subscribed }

theorem MailboxRecord.subscribe_beside (subscribed : Bool) :
    MailboxRecord.Beside (MailboxRecord.subscribe subscribed) := fun _ => ⟨rfl, rfl⟩

/-- The role the user set, with the role and sort order the row carries under it. -/
def MailboxRecord.withRole (role : RoleOverride) (sortOrder : Nat) (r : MailboxRecord) :
    MailboxRecord :=
  { r with
    roleOverride := some role.column
    row.facts.role := role.get
    row.facts.sortOrder := sortOrder }

theorem MailboxRecord.withRole_beside (role : RoleOverride) (sortOrder : Nat) :
    MailboxRecord.Beside (MailboxRecord.withRole role sortOrder) := fun _ => ⟨rfl, rfl⟩

namespace MailboxChange

/-- The mailbox a change is about and what became of it. -/
def entry : MailboxChange → MailboxId × ChangeKind
  | .created row _ => (row.id, .created)
  | .renamed id _ _ _ => (id, .updated)
  | .subscribed id _ => (id, .updated)
  | .role id _ _ => (id, .updated)
  | .destroyed id => (id, .destroyed)

/-- The rows of one change. -/
def rows (w : Writing) : MailboxChange → Except StoreError Writing
  | .created row override => do
    let t ← upsert w.tables row
    let tables := match override with
      | some override => updateMailbox t row.id (MailboxRecord.overridden override.column)
          ((MailboxRecord.overridden_beside _).apart _)
      | none => t
    pure { w with tables }
  | .renamed id imapName name parentId => do
    let w ← Huliho.renamed w id imapName
    let tables := updateMailbox w.tables id (MailboxRecord.placedUnder name parentId)
      ((MailboxRecord.placedUnder_beside _ _).apart _)
    pure { w with tables }
  | .subscribed id on =>
    let tables := updateMailbox w.tables id (MailboxRecord.subscribe on)
      ((MailboxRecord.subscribe_beside _).apart _)
    pure { w with tables }
  | .role id override sortOrder =>
    let tables := updateMailbox w.tables id (MailboxRecord.withRole override sortOrder)
      ((MailboxRecord.withRole_beside _ _).apart _)
    pure { w with tables }
  | .destroyed id =>
    let mailboxes := w.tables.mailboxes.delete fun r => r.row.id = id
    pure { w with tables := { w.tables with mailboxes } }

/-- One change written to the rows and noted. -/
def written (w : Writing) (change : MailboxChange) : Except StoreError Writing := do
  let w ← change.rows w
  pure { w with ledger := w.ledger.note (.mailbox, change.entry.1) change.entry.2 }

/-- The mailbox the change destroyed. -/
def gone : MailboxChange → Option MailboxId
  | .destroyed id => some id
  | _ => none

end MailboxChange

/-- Writes what one `Mailbox/set` did, in its order, as one state. Answers the state before and
the state after. -/
def writeMailboxes (t : Tables) (changes : List MailboxChange) :
    Except StoreError (Tables × Nat × Nat) := do
  let before := stateOf t
  let w ← changes.foldlM MailboxChange.written ⟨t, Table.empty⟩
  if w.ledger.isEmpty then pure (w.tables, before, before)
  else
    let (t, sequence) := nextSequence w.tables
    -- First, since the rows a vanish logs step aside for these.
    let t ← w.ledger.write t sequence
    let t := (changes.filterMap MailboxChange.gone).foldl (fun t id => vanish t id sequence) t
    pure (prune t, before, sequence)

end Huliho
