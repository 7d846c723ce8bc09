import Huliho.Lib.Patches
import Huliho.Lib.Record
import Huliho.Lib.Sequence

/-!
# The rows of the client's cache

`store.ts`: what the client keeps of one account — its mailboxes, the headers of its emails, the
threads with the state of every member, the lists it handed out and the log of the changes the
server has not acknowledged. One `Batch` is one atomic write: the areas that empty first, then what
leaves, then what lands.

The keywords and mailboxes of an email are one set of `Path`s, as a `/set` update names them, and a
patch is a patch of that set. A time is the number of its milliseconds. The model holds one account
and leaves out what no change of an email reads: bodies, searches, quotas and the words of a header.
-/

namespace Huliho.Cache

abbrev EmailId := String
abbrev ThreadId := String
abbrev MailboxId := String

/-- A member of one of the two sets of an email. -/
inductive Path
  | keyword (key : String)
  | mailbox (id : MailboxId)
deriving DecidableEq, Repr

/-- The keyword of a message that was read. -/
def SEEN : Path := .keyword "$seen"

/-- The keywords and mailboxes of one email. -/
abbrev MemberState := Finset Path

/-- The keywords and mailboxes an email gains and loses. -/
abbrev EmailPatch := Patch Path

/-- One change the server has not acknowledged: the patch the rows took and the patch that takes it
back. -/
structure PendingRow where
  seq : Nat
  id : EmailId
  threadId : Option ThreadId
  patch : EmailPatch
  inverse : EmailPatch
  /-- When a request last carried the patch. -/
  sentAt : Option Nat
  destroy : Bool
  /-- Whether the window can still take the destroy back. -/
  held : Bool
  /-- The lease of the tab that logged a held destroy. -/
  lease : Option String
deriving DecidableEq

/-- The log, oldest first. -/
abbrev Log := Sequence PendingRow.seq

structure EmailHeader where
  id : EmailId
  threadId : ThreadId
  receivedAt : Int
  state : MemberState
deriving DecidableEq

/-- An email as a round of changes names it. -/
structure EmailState where
  id : EmailId
  threadId : ThreadId
  state : MemberState
deriving DecidableEq

/-- A thread as the server names it. -/
structure Thread where
  id : ThreadId
  emailIds : List EmailId
deriving DecidableEq

abbrev Members := Record EmailId MemberState

structure ThreadRow where
  id : ThreadId
  emailIds : List EmailId
  members : Members

/-- A mailbox with its four counts. -/
structure Mailbox where
  id : MailboxId
  totalEmails : Nat
  unreadEmails : Nat
  totalThreads : Nat
  unreadThreads : Nat
deriving DecidableEq

/-- One page a list handed out. -/
structure Page where
  page : Nat
  ids : List EmailId
deriving DecidableEq

/-- The first page as the server orders it now, held back for the user. -/
structure FreshPage where
  ids : List EmailId
  total : Option Nat
  queryState : String
deriving DecidableEq

/-- The list of one mailbox. -/
structure QueryRow where
  /-- The mailbox. -/
  id : MailboxId
  queryState : String
  total : Option Nat
  pages : List Page
  /-- The new exemplars the marker counts. -/
  pending : List EmailId
  fresh : Option FreshPage
deriving DecidableEq

inductive ObjectType
  | mailbox
  | email
  | thread
deriving DecidableEq, Repr

inductive StoreArea
  | mailboxes
  | emails
  | threads
  | queries
  | pending
deriving DecidableEq, Repr

/-- What lands in an area and what leaves it. -/
structure Change (ρ ι : Type) where
  put : List ρ := []
  remove : List ι := []

/-- One atomic write. -/
structure Batch where
  reset : List StoreArea := []
  mailboxes : Change Mailbox MailboxId := {}
  emails : Change EmailHeader EmailId := {}
  threads : Change ThreadRow ThreadId := {}
  queries : Change QueryRow MailboxId := {}
  /-- A pending row leaves by its sequence number. -/
  pending : Change PendingRow Nat := {}
  states : List (ObjectType × Option String) := []

/-- The rows of one account. -/
structure Store where
  mailboxes : List Mailbox
  emails : EmailId → Option EmailHeader
  threads : ThreadId → Option ThreadRow
  queries : List QueryRow
  pending : Log
  states : ObjectType → Option String

/-- An account before its first row. -/
def Store.empty : Store := ⟨[], fun _ => none, fun _ => none, [], Sequence.empty, fun _ => none⟩

/-! ## A batch -/

namespace Change

variable {ρ ι : Type} [DecidableEq ι]

/-- A keyed area after a change: what leaves, then what lands, a later row of a key winning. -/
def keyed (change : Change ρ ι) (key : ρ → ι) (held : ι → Option ρ) : ι → Option ρ := fun id =>
  match change.put.reverse.find? fun row => key row = id with
  | some row => some row
  | none => if id ∈ change.remove then none else held id

/-- A row in, in the place of the one of its key. -/
def set (key : ρ → ι) (rows : List ρ) (row : ρ) : List ρ :=
  if rows.any fun held => key held = key row then
    rows.map fun held => if key held = key row then row else held
  else rows ++ [row]

/-- The same of an area that is read whole. -/
def listed (change : Change ρ ι) (key : ρ → ι) (held : List ρ) : List ρ :=
  change.put.foldl (set key) (held.filter fun row => key row ∉ change.remove)

variable {change : Change ρ ι} {key : ρ → ι} {held : ι → Option ρ} {id : ι}

theorem keyed_of_not_put (h : ∀ row ∈ change.put, key row ≠ id) :
    change.keyed key held id = if id ∈ change.remove then none else held id := by
  have hnone : change.put.reverse.find? (fun row => decide (key row = id)) = none :=
    List.find?_eq_none.2 fun row hm => by simpa using h row (List.mem_reverse.1 hm)
  rw [keyed, hnone]

/-- The row of a key that lands, a later one winning. -/
def landing (change : Change ρ ι) (key : ρ → ι) (id : ι) : Option ρ :=
  change.put.reverse.find? fun row => key row = id

theorem landing_eq_some {row : ρ} (h : change.landing key id = some row) :
    row ∈ change.put ∧ key row = id :=
  ⟨List.mem_reverse.1 (List.mem_of_find?_eq_some h), of_decide_eq_true (List.find?_some h :)⟩

theorem landing_eq_none : change.landing key id = none ↔ ∀ row ∈ change.put, key row ≠ id := by
  simp [landing]

theorem keyed_eq : change.keyed key held id =
    (change.landing key id).or (if id ∈ change.remove then none else held id) := by
  rw [keyed, landing]
  cases change.put.reverse.find? fun row => key row = id <;> rfl

/-- Rows changed in place land changed. -/
theorem landing_map {after : Change ρ ι} {f : ρ → ρ} (hput : after.put = change.put.map f)
    (hf : ∀ row, key (f row) = key row) :
    after.landing key id = (change.landing key id).map f := by
  rw [landing, landing, hput, ← List.map_reverse, List.find?_map]
  simp only [Function.comp_def, hf]

/-- A row that lands is one of the change. -/
theorem keyed_of_put (h : ∃ row ∈ change.put, key row = id) :
    ∃ row ∈ change.put, key row = id ∧ change.keyed key held id = some row := by
  cases hf : change.put.reverse.find? (fun row => decide (key row = id)) with
  | none =>
    obtain ⟨row, hm, hk⟩ := h
    have := List.find?_eq_none.1 hf row (List.mem_reverse.2 hm)
    exact absurd (decide_eq_true hk) this
  | some row =>
    have hk := List.find?_some hf
    rw [decide_eq_true_eq] at hk
    refine ⟨row, List.mem_reverse.1 (List.mem_of_find?_eq_some hf), hk, ?_⟩
    rw [keyed, hf]

/-- The one row of a key lands. -/
theorem keyed_put {row : ρ} (hm : row ∈ change.put)
    (h : ∀ other ∈ change.put, key other = key row → other = row) :
    change.keyed key held (key row) = some row := by
  obtain ⟨other, hother, hk, heq⟩ : ∃ other ∈ change.put, key other = key row ∧
      change.keyed key held (key row) = some other := keyed_of_put ⟨row, hm, rfl⟩
  rw [heq, h other hother hk]

end Change

def Batch.clears (batch : Batch) (area : StoreArea) : Prop := area ∈ batch.reset

instance (batch : Batch) (area : StoreArea) : Decidable (batch.clears area) :=
  inferInstanceAs (Decidable (area ∈ batch.reset))

/-- The states a batch names. -/
def applyStates (states : ObjectType → Option String)
    (changes : List (ObjectType × Option String)) : ObjectType → Option String :=
  changes.foldl (fun states change => Function.update states change.1 change.2) states

/-- One batch. -/
def Store.commit (store : Store) (batch : Batch) : Store where
  mailboxes := batch.mailboxes.listed Mailbox.id
    (if batch.clears .mailboxes then [] else store.mailboxes)
  emails := batch.emails.keyed EmailHeader.id
    (if batch.clears .emails then fun _ => none else store.emails)
  threads := batch.threads.keyed ThreadRow.id
    (if batch.clears .threads then fun _ => none else store.threads)
  queries := batch.queries.listed QueryRow.id
    (if batch.clears .queries then [] else store.queries)
  pending := ((if batch.clears .pending then Sequence.empty else store.pending).remove
    batch.pending.remove).putAll batch.pending.put
  states := applyStates store.states batch.states

/-- The state of an email inside one thread row. -/
def Store.memberAt (store : Store) (threadId : ThreadId) (id : EmailId) : Option MemberState :=
  (store.threads threadId).bind fun thread => thread.members.get id

section Commit

variable {store : Store} {batch : Batch} {id : EmailId} {threadId : ThreadId}

theorem commit_emails : (store.commit batch).emails id =
    (batch.emails.landing EmailHeader.id id).or
      (if id ∈ batch.emails.remove ∨ batch.clears .emails then none else store.emails id) := by
  refine Change.keyed_eq.trans ?_
  by_cases hr : id ∈ batch.emails.remove <;> by_cases hc : batch.clears .emails <;> simp [hr, hc]

theorem commit_threads : (store.commit batch).threads threadId =
    (batch.threads.landing ThreadRow.id threadId).or
      (if threadId ∈ batch.threads.remove ∨ batch.clears .threads then none
        else store.threads threadId) := by
  refine Change.keyed_eq.trans ?_
  by_cases hr : threadId ∈ batch.threads.remove <;> by_cases hc : batch.clears .threads <;>
    simp [hr, hc]

theorem commit_member : (store.commit batch).memberAt threadId id =
    match batch.threads.landing ThreadRow.id threadId with
    | some thread => thread.members.get id
    | none => if threadId ∈ batch.threads.remove ∨ batch.clears .threads then none
        else store.memberAt threadId id := by
  rw [Store.memberAt, commit_threads]
  cases batch.threads.landing ThreadRow.id threadId with
  | some thread => rfl
  | none =>
    simp only [Option.none_or, Store.memberAt]
    split <;> rfl

end Commit

end Huliho.Cache
