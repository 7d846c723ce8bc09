import Huliho.Store.Run

/-!
# The walk through a folder

`sync/mod.rs` and `sync/walk.rs`: the header sync of one folder, newest first, and the new mail of a
folder that is done, oldest first. One turn (`FolderSync.batch`) takes a slice of the UIDs, fetches
it and writes it as one state with how far the folder stands; a fetch that fails on what the server
sent is narrowed — a slice is halved, a lone message tried once more without its structure and left
out when that fails too.

What the server does with a fetch is the turn's `Answer`, the host and the disk are its `Env`.
-/

namespace Huliho.Sync

/-- The messages one fetch names at most. -/
def MAX_FETCH_MESSAGES : Nat := 500

/-- The messages of one batch: one fetch, one transaction, one state. -/
def SYNC_BATCH : Nat := MAX_FETCH_MESSAGES

/-- The failed fetches one run of a folder spends on narrowing. -/
def NARROWING_BUDGET : Nat := 64

/-- The UIDs a walk upward asks for range by range; a wider gap takes the UID list. -/
def REFRESH_GAP : Nat := 10000

/-- `u32::MAX`, where additions saturate. -/
def U32_MAX : Nat := 2 ^ 32 - 1

/-- Which way a sync walks the UIDs of its folder. -/
inductive Walk
  /-- The first sync, newest first, with the server's values of the opening. -/
  | down (synced : Synced)
  /-- The new mail of a folder that is done, oldest first. -/
  | up
  /-- A few UIDs read beside both, which move nothing on record. -/
  | beside
deriving DecidableEq, Repr

/-- UIDs lowest first, and whether the fetch asks for the BODYSTRUCTURE. -/
structure Slice where
  uids : List Nat
  withStructure : Bool
deriving DecidableEq, Repr

/-- The lowest and the highest UID of a slice. -/
def Slice.range (slice : Slice) : Option (Nat × Nat) :=
  match slice.uids.head?, slice.uids.getLast? with
  | some low, some high => some (low, high)
  | _, _ => none

/-- The sync of one folder between its opening and its last batch. -/
structure FolderSync where
  folder : MailboxId
  uidValidity : Nat
  walk : Walk
  /-- Whether the Gmail items ride every fetch. -/
  gmail : Bool
  /-- The UIDs no batch has taken yet, the next ones last. -/
  remaining : List Nat
  /-- What a failed fetch was narrowed to, the next slice last. -/
  narrowed : List Slice
  /-- The slice whose fetch is out. -/
  pending : Option Slice
  budget : Nat
  /-- The highest UID a walk upward covers. -/
  top : Nat
  answered : Nat
deriving DecidableEq, Repr

/-- One message of a fetch: whether it is flagged `\Deleted`, and its facts. -/
structure FetchedMessage where
  deleted : Bool
  facts : EmailFacts

/-- The facts of a message; `none` for one flagged `\Deleted`. -/
def FetchedMessage.email (message : FetchedMessage) : Option EmailFacts :=
  if message.deleted then none else some message.facts

/-- What came of a fetch. -/
inductive Answer
  | fetched (messages : List FetchedMessage)
  /-- A failure on what the server sent. -/
  | protocol
  /-- Any other failure of the session. -/
  | other
  /-- The turn was dropped in the middle of the fetch. -/
  | dropped

/-- What a turn draws from outside: the host's cryptography, the generated ids and whether the disk
fails the write. -/
structure Env where
  sealer : Sealer
  mint : Nat → Minted
  broken : Bool

/-- How a folder stands after one batch. -/
inductive Step
  | more
  | done
  | stale
deriving DecidableEq, Repr

/-- Why a turn answers no step. -/
inductive Failure
  | session
  | store (error : StoreError)
  | cut
deriving DecidableEq, Repr

/-! ## Opening -/

/-- How far a folder stands on record: the lowest UID its first sync passed and whether that is
done. -/
structure Progress where
  lowestSyncedUid : Option Nat
  done : Bool
  uidNext : Option Nat
deriving DecidableEq, Repr

/-- The recorded UIDNEXT counts once the first sync is done. -/
def syncProgress (t : Tables) (folder : MailboxId) : Progress :=
  match t.sync.find? fun s => s.folderId = folder with
  | some s => ⟨s.lowestSyncedUid, s.done, if s.done then s.uidNext else none⟩
  | none => ⟨none, false, none⟩

namespace FolderSync

/-- A sync with nothing listed yet; only a store that holds mail has one. -/
def of (row : MailboxRow) (walk : Walk) : Option FolderSync :=
  if row.facts.selectable && row.facts.store then
    row.facts.uidValidity.map fun uidValidity =>
      { folder := row.id
        uidValidity
        walk
        gmail := false
        remaining := []
        narrowed := []
        pending := none
        budget := NARROWING_BUDGET
        top := 0
        answered := 0 }
  else none

/-- What EXAMINE answers of a folder. -/
structure Selected where
  uidValidity : Nat
  synced : Synced

/-- Opens the first sync of a folder and lists what is left to fetch. `uids` is the server's list,
highest first; `none` for EXAMINE refused. -/
def openDown (t : Tables) (row : MailboxRow) (gmail : Bool) (selected : Option Selected)
    (uids : List Nat) : Option FolderSync :=
  match of row (.down ⟨none, none, none⟩), selected with
  | some sync, some selected =>
    let progress := syncProgress t row.id
    if progress.done || selected.uidValidity ≠ sync.uidValidity then none
    else
      let uids := match progress.lowestSyncedUid with
        | some lowest => uids.filter (· < lowest)
        | none => uids
      some { sync with
        gmail
        walk := .down selected.synced
        remaining := uids.reverse }
  | _, _ => none

/-- The UIDs `low` up to and including `high`, lowest first. -/
def span (low high : Nat) : List Nat := List.range' low (high + 1 - low)

/-- The new mail of a folder: the UIDs `low` up to and including `through`. -/
def above (row : MailboxRow) (low through : Nat) (gmail : Bool) (uids : List Nat) :
    Option FolderSync :=
  let low := max low 1
  match of row .up with
  | some sync =>
    if low ≤ through then
      some { sync with
        gmail
        top := through
        remaining :=
          if through - low < REFRESH_GAP then (span low through).reverse
          else uids.filter fun uid => low ≤ uid ∧ uid ≤ through }
    else none
  | none => none

/-- The same UIDs read beside any walk, moving nothing on record. -/
def asBeside (s : FolderSync) : FolderSync := { s with walk := .beside }

/-- Widens a walk upward to `through`; `none` when the gap is wider than a walk asks for range by
range. -/
def extendTo (s : FolderSync) (through : Nat) : Option FolderSync :=
  if s.walk ≠ .up ∨ through ≤ s.top then some s
  else if through - s.top ≥ REFRESH_GAP then none
  else some { s with
    remaining := (span (s.top + 1) through).reverse ++ s.remaining
    top := through }

/-! ## One turn -/

/-- Whether the walk goes newest first. -/
def downward (s : FolderSync) : Bool :=
  match s.walk with
  | .down _ => true
  | _ => false

/-- The slice that goes next: the one a dropped turn left, the narrowed one on top, else the next
`SYNC_BATCH` UIDs of what remains. -/
def nextSlice (s : FolderSync) : Option Slice × FolderSync :=
  match s.pending with
  | some slice => (some slice, { s with pending := none })
  | none =>
    match s.narrowed.getLast? with
    | some slice => (some slice, { s with narrowed := s.narrowed.dropLast })
    | none =>
      if s.remaining = [] then (none, s)
      else
        let rest := s.remaining.length - SYNC_BATCH
        let uids := s.remaining.drop rest
        (some ⟨if s.downward then uids else uids.reverse, true⟩,
          { s with remaining := s.remaining.take rest })

/-- Puts back what a failed slice narrows to, the half the walk reaches first last. Answers the UID
of a message that is left out. With the budget spent the slice goes back whole. -/
def narrow (s : FolderSync) (slice : Slice) : Option Nat × FolderSync :=
  match s.budget with
  | 0 => (none, { s with narrowed := s.narrowed ++ [slice] })
  | budget + 1 =>
    let s := { s with budget }
    if slice.uids.length > 1 then
      let lower : Slice := { slice with uids := slice.uids.take (slice.uids.length / 2) }
      let upper : Slice := { slice with uids := slice.uids.drop (slice.uids.length / 2) }
      (none, { s with
        narrowed := s.narrowed ++ if s.downward then [lower, upper] else [upper, lower] })
    else if slice.withStructure then
      (none, { s with narrowed := s.narrowed ++ [{ slice with withStructure := false }] })
    else (slice.uids.head?, s)

/-- Nothing waits anymore. -/
def finished (s : FolderSync) : Bool := s.narrowed.isEmpty && s.remaining.isEmpty

/-- How far the folder stands after a write of `arrived` messages that passed the range; `none`
where a walk that is not the first sync has nothing to record. -/
def advance (s : FolderSync) (arrived : Nat) (passed : Option (Nat × Nat)) : Option Advance :=
  match s.walk, passed with
  | .down synced, passed => some (.down (passed.map Prod.fst) s.finished synced)
  | .up, some range => some (.up (min (range.2 + 1) U32_MAX) (min arrived U32_MAX))
  | .beside, some _ => some .beside
  | _, none => none

end FolderSync

/-- One batch as one transaction of the store; a disk that fails writes nothing. -/
def applyBatch (env : Env) (store : Store) (batch : Batch) :
    Store × Except StoreError (Option Nat) :=
  if env.broken then (store, .error .database)
  else if store.forgotten then (store, .error .forgotten)
  else
    match writeBatch env.sealer env.mint store.tables batch with
    | .ok written => ({ store with tables := written.1 }, .ok written.2)
    | .error error => (store, .error error)

namespace FolderSync

/-- Maps and writes. A walk down is done once nothing waits; a walk up has nothing to record
then. -/
def write (env : Env) (store : Store) (s : FolderSync) (messages : List FetchedMessage)
    (passed : Option (Nat × Nat)) : Store × Except StoreError Step :=
  match s.advance messages.length passed with
  | none => (store, .ok .done)
  | some advance =>
    let emails := messages.filterMap FetchedMessage.email
    let written := applyBatch env store ⟨s.folder, s.uidValidity, emails, advance⟩
    (written.1, written.2.map fun state =>
      if state = none then .stale else if s.finished then .done else .more)

/-- Why a turn that left a message out answers no step: the fetch, unless the write failed. -/
def failed : Except StoreError Step → Failure
  | .ok _ => .session
  | .error error => .store error

/-- Fetches the next slice and writes it as one state. -/
def batch (env : Env) (store : Store) (s : FolderSync) (answer : Answer) :
    FolderSync × Store × Except Failure Step :=
  match s.nextSlice with
  | (none, s) =>
    let written := s.write env store [] none
    (s, written.1, written.2.mapError .store)
  | (some slice, s) =>
    match slice.range with
    | none => (s, store, .ok .more)
    | some range =>
      match answer with
      | .dropped => ({ s with pending := some slice }, store, .error .cut)
      | .fetched messages =>
        let s := { s with answered := min (s.answered + messages.length) U32_MAX }
        let written := s.write env store messages (some range)
        (s, written.1, written.2.mapError .store)
      | .protocol =>
        match s.narrow slice with
        | (none, s) => (s, store, .error .session)
        | (some uid, s) =>
          let written := s.write env store [] (some (uid, uid))
          (s, written.1, .error (failed written.2))
      | .other => ({ s with narrowed := s.narrowed ++ [slice] }, store, .error .session)

end FolderSync

end Huliho.Sync
