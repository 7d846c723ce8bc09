import Huliho.Lib.Saturating
import Huliho.Store.View

/-!
# The plan of a search

`jmap/query/plan.rs`: which folders a search asks of the server, in what order and with which coarse
keys, from the filter as `jmap/query.rs` reads it. The SQL over the hits makes the scope and the
dates exact (`Filter.Meets`), so all the plan owes is to leave no row of the result out.

A day is counted from 1970-01-01. The parser of a `UTCDate` is the `time` crate's and comes in as a
parameter; what it answers is an `Instant`.
-/

namespace Huliho.SearchPlan

/-! ## The filter -/

def SEEN : String := "$seen"
def FLAGGED : String := "$flagged"

def NO_DATE : String := "a date of the filter is no UTCDate"

/-- A parsed date: its seconds since the epoch, rounded down, and the nanoseconds past them. Its
year lies between −9999 and 9999. -/
structure Instant where
  unixTimestamp : Int
  nanosecond : Nat
  within : nanosecond < 1000000000
  inCalendar : -377705116800 ≤ unixTimestamp ∧ unixTimestamp ≤ 253402300799

/-- Whether a whole second lies at or past an instant. -/
def Instant.ReachedBy (instant : Instant) (second : Int) : Prop :=
  instant.unixTimestamp * 1000000000 + instant.nanosecond ≤ second * 1000000000

/-- The first whole second at or past an instant. -/
def Instant.whole (instant : Instant) : Int :=
  if instant.nanosecond > 0 then saturatingAdd instant.unixTimestamp 1 else instant.unixTimestamp

/-- A `UTCDate` as the first whole second at or past it. Its offset is written `Z`, in either case,
and never in digits. -/
def seconds (parse : String → Option Instant) : Option String → Except String (Option Int)
  | none => .ok none
  | some date =>
    match parse date with
    | none => .error NO_DATE
    | some instant =>
      if date.toList.getLast? = some 'Z' ∨ date.toList.getLast? = some 'z' then
        .ok (some instant.whole)
      else .error NO_DATE

/-- The condition of a search, its keywords in lower case and its dates in seconds. -/
structure Filter where
  inMailbox : Option MailboxId
  otherThan : Option (List MailboxId)
  hasKeyword : Option String
  notKeyword : Option String
  text : String
  from_ : String
  after : Option Int
  before : Option Int
  hasAttachment : Option Bool
deriving DecidableEq, Repr

namespace Filter

def unseen (filter : Filter) : Bool := filter.notKeyword = some SEEN

def flagged (filter : Filter) : Bool := filter.hasKeyword = some FLAGGED

/-- What `CONDITIONS` of `store/search.rs` asks of a row's memberships and of its arrival. -/
structure Meets (filter : Filter) (t : Tables) (row : EmailRecord) : Prop where
  scope : ∃ mailbox ∈ currentMemberships t row.id, ∀ named ∈ filter.inMailbox, mailbox = named
  outside : ∀ leftOut ∈ filter.otherThan,
    ∃ mailbox ∈ currentMemberships t row.id, mailbox ∉ leftOut
  since : ∀ after ∈ filter.after, after ≤ row.receivedAt
  until_ : ∀ before ∈ filter.before, row.receivedAt < before

end Filter

/-! ## Days -/

/-- A day of the calendar, counted from 1970-01-01. -/
abbrev Date := Int

/-- The first day of the year −9999 and the last of 9999. -/
def FIRST_DATE : Date := -4371587
def LAST_DATE : Date := 2932896

/-- The first day of the year 0: no IMAP date writes one before it. -/
def FIRST_WRITABLE : Date := -719528

/-- The seconds of a day. -/
def DAY : Int := 86400

/-- The day in UTC a second lies in, where the calendar holds it. -/
def fromUnixTimestamp (second : Int) : Option Date :=
  let day := second / DAY
  if FIRST_DATE ≤ day ∧ day ≤ LAST_DATE then some day else none

def previousDay (day : Date) : Option Date := if day = FIRST_DATE then none else some (day - 1)

def nextDay (day : Date) : Option Date := if day = LAST_DATE then none else some (day + 1)

/-- The difference of two signed words, where a word holds it. -/
def checkedSub (a b : Int) : Option Int := if InI64 (a - b) then some (a - b) else none

/-- Whether a SINCE or BEFORE key can name the day: its year has four digits. -/
def writableDay (day : Date) : Bool := FIRST_WRITABLE ≤ day ∧ day ≤ LAST_DATE

/-- The SINCE day for `after`: the day before its day in UTC. -/
def since (after : Int) : Option Date := do
  let day ← fromUnixTimestamp after
  let day ← previousDay day
  if writableDay day then some day else none

/-- The BEFORE day for `before`: two days past the day of the last second that matches. -/
def before (before : Int) : Option Date := do
  let last ← checkedSub before 1
  let day ← fromUnixTimestamp last
  let day ← nextDay day
  let day ← nextDay day
  if writableDay day then some day else none

/-! ## Mailboxes -/

/-- The bridge's spelling of a system label beside the one a STORE writes. -/
def WRITTEN_LABELS : List (String × String) :=
  [("\\Flagged", "\\Starred"), ("\\Drafts", "\\Draft")]

/-- A label in the bridge's spelling as a STORE writes it. -/
def written (label : String) : String :=
  ((WRITTEN_LABELS.find? fun known => known.1 = label).map Prod.snd).getD label

/-- The mailboxes of an account as they stand, in the order the tree is read in. -/
structure Snapshot (t : Tables) where
  rows : List MailboxRow
  read : rows.Perm (t.mailboxes.rows.map MailboxRecord.row)

/-- Whether the account is a Gmail account: some row carries a label. -/
def Snapshot.gmail {t : Tables} (snapshot : Snapshot t) : Bool :=
  snapshot.rows.any fun row => row.facts.gmailLabel.isSome

/-- One folder a plan searches. -/
structure Folder where
  id : MailboxId
  imapName : String
  uidValidity : Nat
  label : Option String
deriving DecidableEq, Repr

/-- What one search asks of the server. -/
structure Plan where
  text : String
  from_ : String
  unseen : Bool
  flagged : Bool
  since : Option Date
  before : Option Date
  gmail : Bool
  folders : List Folder
deriving DecidableEq, Repr

/-- The folder as the session searches it; `none` for one it cannot open or whose rows stand under
no UIDVALIDITY. -/
def searched (row : MailboxRow) (label : Option String) : Option Folder := do
  let facts := row.facts
  let uidValidity ← facts.uidValidity.filter fun _ => facts.selectable && facts.store
  some { id := row.id, imapName := facts.imapName, uidValidity, label }

/-- The folder of a row under a label, beside the row. -/
def beside (label : Option String) (row : MailboxRow) : Option (MailboxRow × Folder) :=
  (searched row label).map fun folder => (row, folder)

/-- The folders of the scope: the mailbox it names, else every folder outside the ones it leaves
out. -/
def folderAccount (filter : Filter) (rows : List MailboxRow) : List (MailboxRow × Folder) :=
  let kept (row : MailboxRow) : Bool :=
    match filter.inMailbox, filter.otherThan with
    | some mailbox, _ => row.id = mailbox
    | none, some leftOut => row.id ∉ leftOut
    | none, none => true
  (rows.filter kept).filterMap (beside none)

/-- The store that holds every message outside Spam and Trash. -/
def isAllMail (row : MailboxRow) : Bool :=
  row.facts.store && row.facts.role = some ALL_MAIL_ROLE

/-- The stores the scope's rows can lie in: a store named is searched alone, a label mailbox is All
Mail under its label. Without a mailbox All Mail always runs. -/
def gmailAccount (filter : Filter) (rows : List MailboxRow) : List (MailboxRow × Folder) :=
  match filter.inMailbox with
  | some mailbox =>
    match rows.find? fun row => row.id = mailbox with
    | none => []
    | some row =>
      if row.facts.store then (beside none row).toList
      else
        match row.facts.gmailLabel with
        | some label => ((rows.find? isAllMail).bind (beside (some (written label)))).toList
        | none => []
  | none =>
    let kept (row : MailboxRow) : Bool := row.id ∉ filter.otherThan.getD []
    ((rows.filter fun row => row.facts.store).filter fun row =>
      row.facts.role = some ALL_MAIL_ROLE || kept row).filterMap (beside none)

/-- The roles whose folders run last. -/
def LAST_ROLES : List String := ["junk", "trash"]

def runsLast (row : MailboxRow) : Bool := row.facts.role.any LAST_ROLES.contains

/-- The folders in the tree's order with Junk and Trash behind the rest. -/
def lastRolesLast (folders : List (MailboxRow × Folder)) : List Folder :=
  -- `sort_by_key` keeps the order of folders with one key, and `false` comes before `true`.
  (folders.mergeSort fun a b => !runsLast a.1 || runsLast b.1).map Prod.snd

/-- The plan of a filter over the account's mailboxes as they stand. -/
def plan {t : Tables} (filter : Filter) (snapshot : Snapshot t) : Plan :=
  { text := filter.text
    from_ := filter.from_
    unseen := filter.unseen
    flagged := filter.flagged
    since := filter.after.bind since
    before := filter.before.bind before
    gmail := snapshot.gmail
    folders := lastRolesLast <|
      if snapshot.gmail then gmailAccount filter snapshot.rows
      else folderAccount filter snapshot.rows }

end Huliho.SearchPlan
