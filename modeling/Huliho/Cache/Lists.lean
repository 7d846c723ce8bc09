import Mathlib.Algebra.GroupWithZero.Nat
import Mathlib.Data.List.Sort
import Huliho.Cache.Counts

/-!
# The lists after a move

`lists.ts`: what a change of mailboxes does to the lists the client handed out. A thread whose last
member left a mailbox leaves its list at once; one that comes back by an undo or a refusal takes its
place there again.
-/

namespace Huliho.Cache

/-- One email whose mailboxes may change, with where it sorts in a list and whether a thread it
brings into a mailbox takes its place there again. -/
structure ListChange extends MemberChange where
  receivedAt : Option Int
  restores : Bool

/-- Takes `ids` out of every page of the list, the marker's count and the fresh page; the total
drops by the rows that left a page. Answers whether a row left a page. -/
def strip (row : QueryRow) (ids : List EmailId) : QueryRow × Bool :=
  let kept (page : Page) := page.ids.filter fun id => id ∉ ids
  let all := (row.pages.map fun page => page.ids.length).sum
  let left := (row.pages.map fun page => (kept page).length).sum
  ({ row with
      total := row.total.map fun total => total + left - all
      pages := row.pages.map fun page => { page with ids := kept page }
      pending := row.pending.filter fun id => id ∉ ids
      fresh := row.fresh.map fun fresh => { fresh with ids := fresh.ids.filter fun id => id ∉ ids } },
    left ≠ all)

def standsIn (members : Members) (mailboxId : MailboxId) : Bool :=
  members.values.any fun member => .mailbox mailboxId ∈ member

/-- A thread that left the list's mailbox leaves it. -/
def leave (row : QueryRow) (ids : List EmailId) : QueryRow × Bool :=
  let (stripped, left) := strip row ids
  let shorter := (stripped.fresh.elim 0 fun fresh => fresh.ids.length) <
    row.fresh.elim 0 fun fresh => fresh.ids.length
  (if shorter then
    { stripped with
      fresh := stripped.fresh.map fun fresh =>
        { fresh with total := fresh.total.map fun total => total - 1 } }
  else stripped, left)

/-- An email back at its place by its receipt time, newest first: before the first held row older
than it, after the last one when the list holds every row, else left for the page that holds its
place. -/
def enter (row : QueryRow) (id : EmailId) (time : Int) (times : EmailId → Option Int) :
    QueryRow × Bool :=
  let older (id : EmailId) : Bool := (times id).any fun held => held < time
  let pages := row.pages.insertionSort fun a b => a.page ≤ b.page
  let loaded := (pages.map fun page => page.ids.length).sum
  let grown := row.total.map fun total => total + 1
  let within (held : Page) (ids : List EmailId) := row.pages.map fun page =>
    if page = held then { page with ids } else page
  match pages.find? fun page => page.ids.any older with
  | some page =>
    let place := page.ids.findIdx older
    ({ row with
        total := grown
        pages := within page (page.ids.take place ++ id :: page.ids.drop place) }, true)
  | none =>
    match pages.getLast?, row.total with
    | some last, some total =>
      if total ≤ loaded then
        ({ row with total := grown, pages := within last (last.ids ++ [id]) }, true)
      else (row, false)
    | _, _ => (row, false)

/-- How one thread stands in the lists before and after a change. -/
structure ThreadMove where
  ids : List EmailId
  before : Members
  after : Members
  changes : List ListChange

def threadMovesOf (changes : List ListChange) (members : ThreadId → Option Members) :
    List ThreadMove :=
  (firsts (changes.map fun change => change.threadId)).map fun threadId =>
    let inThread := changes.filter fun change => change.threadId = threadId
    let base := (members threadId).getD Table.empty
    let side (pick : MemberChange → MemberState) :=
      membersWith base (inThread.map ListChange.toMemberChange) pick
    { ids := base.rows.map Prod.fst ++ inThread.map fun change => change.id
      before := side MemberChange.before
      after := side MemberChange.after
      changes := inThread }

/-- The newest email a restoring change brings into the mailbox, with its receipt time. -/
def returning (move : ThreadMove) (mailboxId : MailboxId) : Option (EmailId × Int) :=
  move.changes.foldl (fun newest change =>
    match change.receivedAt with
    | none => newest
    | some time =>
      if change.restores ∧ .mailbox mailboxId ∈ change.after ∧
          .mailbox mailboxId ∉ change.before then
        match newest with
        | some (_, best) => if best < time then some (change.id, time) else newest
        | none => some (change.id, time)
      else newest) none

/-- What one thread's move does to one list. -/
def moveIn (row : QueryRow) (move : ThreadMove) (times : EmailId → Option Int) : QueryRow × Bool :=
  let was := standsIn move.before row.id
  let is := standsIn move.after row.id
  if was && !is then leave row move.ids
  else
    match if was || !is then none else returning move row.id with
    | none => (row, false)
    | some (id, time) =>
      if row.pages.any fun page => page.ids.any fun id => id ∈ move.ids then (row, false)
      else enter row id time times

/-- The receipt times of every row the lists hold. -/
def timesOf (store : Store) : EmailId → Option Int := fun id =>
  if store.queries.any fun row => row.pages.any fun page => id ∈ page.ids then
    (store.emails id).map EmailHeader.receivedAt
  else none

/-- The lists that changed after emails changed mailboxes. `members` holds what each thread knew
before. -/
def listsAfter (store : Store) (changes : List ListChange) (members : ThreadId → Option Members) :
    List QueryRow :=
  let moves := threadMovesOf changes members
  let times := if changes.any ListChange.restores then timesOf store else fun _ => none
  store.queries.filterMap fun row =>
    let after := moves.foldl (fun (held : QueryRow × Bool) move =>
      let moved := moveIn held.1 move times
      (moved.1, held.2 || moved.2)) (row, false)
    if after.2 then some after.1 else none

end Huliho.Cache
