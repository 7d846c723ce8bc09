import Huliho.Cache.Patch

/-!
# The counts of a mailbox

`counts.ts`: how far the four counts of each mailbox move when emails change inside their threads.
A mailbox no move names stands `still`.
-/

namespace Huliho.Cache

/-- How far the four counts of one mailbox move. -/
structure Move where
  totalEmails : Int
  unreadEmails : Int
  totalThreads : Int
  unreadThreads : Int
deriving DecidableEq

abbrev Moves := MailboxId → Move

def still : Move := ⟨0, 0, 0, 0⟩

/-- The emails of a thread in a mailbox and the unread ones among them. -/
def countIn (members : Members) (mailboxId : MailboxId) : Nat × Nat :=
  let inside := members.values.filter fun member => .mailbox mailboxId ∈ member
  (inside.length, (inside.filter fun member => SEEN ∉ member).length)

/-- How the counts of each mailbox move when the members of one thread go from `before` to
`after`. -/
def threadMoves (before after : Members) : Moves := fun id =>
  let was := countIn before id
  let is := countIn after id
  { totalEmails := is.1 - was.1
    unreadEmails := is.2 - was.2
    totalThreads := (if 0 < is.1 then 1 else 0) - if 0 < was.1 then 1 else 0
    unreadThreads := (if 0 < is.2 then 1 else 0) - if 0 < was.2 then 1 else 0 }

def combined (first second : Move) (sign : Int) : Move where
  totalEmails := first.totalEmails + sign * second.totalEmails
  unreadEmails := first.unreadEmails + sign * second.unreadEmails
  totalThreads := first.totalThreads + sign * second.totalThreads
  unreadThreads := first.unreadThreads + sign * second.unreadThreads

def addMoves (total more : Moves) : Moves := fun id => combined (total id) (more id) 1

/-- What takes the counts from the moves `was` to the moves `now`. -/
def shiftOf (was now : Moves) : Moves := fun id => combined (now id) (was id) (-1)

/-- One email whose state changes inside its thread. -/
structure MemberChange where
  id : EmailId
  threadId : ThreadId
  before : MemberState
  after : MemberState

def membersWith (base : Members) (changes : List MemberChange)
    (side : MemberChange → MemberState) : Members :=
  changes.foldl (fun members change => members.put change.id (side change)) base

/-- How the counts move when emails change inside their threads; `members` holds what each thread
knows of its other emails. -/
def movesOf (members : ThreadId → Option Members) (changes : List MemberChange) : Moves :=
  (firsts (changes.map MemberChange.threadId)).foldl (fun total threadId =>
    let inThread := changes.filter fun change => change.threadId = threadId
    let base := (members threadId).getD Table.empty
    addMoves total (threadMoves (membersWith base inThread MemberChange.before)
      (membersWith base inThread MemberChange.after))) fun _ => still

/-- A mailbox with a move counted in; a count stops at zero. -/
def Mailbox.moved (row : Mailbox) (move : Move) : Mailbox :=
  { row with
    totalEmails := (row.totalEmails + move.totalEmails).toNat
    unreadEmails := (row.unreadEmails + move.unreadEmails).toNat
    totalThreads := (row.totalThreads + move.totalThreads).toNat
    unreadThreads := (row.unreadThreads + move.unreadThreads).toNat }

/-- The mailbox rows a move names, with it counted in. -/
def recounted (mailboxes : List Mailbox) (moved : Moves) : List Mailbox :=
  (mailboxes.filter fun row => moved row.id ≠ still).map fun row => row.moved (moved row.id)

end Huliho.Cache
