import Mathlib.Data.List.Sort
import Huliho.Lib.Record
import Huliho.Lib.Steps

/-!
# The pages of a search

`search-window.ts` and what it takes of `window.ts`: a search holds the server's pages as it fetched
them and shows their rows as the store reads them now, so a thread a waiting change took out of the
scope shows no row and the rows after it close up. The next page is asked by anchor on the last row
shown.

The server's results stand still. A `Results` has them in their order with their threads, collapsed:
no two are of one thread. How many it answers at most at once is its own business.
-/

namespace Huliho.Search

/-- A page of the list: what the store serves and a query asks for. -/
def windowSize : Nat := 100

/-- The results of a search as the server holds them. -/
structure Results (α : Type) where
  ids : List α
  thread : α → α
  /-- The most a query answers, one at least. -/
  limit : Nat
  limit_pos : 0 < limit
  apart : (ids.map thread).Nodup

section

variable {α : Type} [DecidableEq α]

/-! ## The server's pages -/

/-- Where a window starts: at a position, or right after an anchor. -/
inductive Start (α : Type)
  | position (n : Nat)
  | anchor (id : α)

/-- The results from a start on; none where the anchor is not among them. -/
def Results.from? (server : Results α) : Start α → Option (List α)
  | .position n => some (server.ids.drop n)
  | .anchor id =>
    if id ∈ server.ids then some (server.ids.drop (server.ids.idxOf id + 1)) else none

/-- One query, and whether the server lowered the limit. -/
def Results.query (server : Results α) (start : Start α) (wanted : Nat) : Option (List α × Bool) :=
  (server.from? start).map fun ids => (ids.take (min wanted server.limit), server.limit < wanted)

/-- `fetchChunk`: a server that lowers the limit gets the rest asked by anchor until the page is full
or the list ends; each turn asks fewer. -/
def fetchChunk (server : Results α) : Nat → Start α → Nat → Option (List α)
  | 0, _, _ => some []
  | turns + 1, start, wanted =>
    match server.query start wanted with
    | none => none
    | some (ids, lowered) =>
      match ids.getLast? with
      | none => some ids
      | some last =>
        if ids.length < wanted && lowered then
          (fetchChunk server turns (.anchor last) (wanted - ids.length)).map (ids ++ ·)
        else some ids

/-- `fetchWindow`. -/
def fetchWindow (server : Results α) (start : Start α) : Option (List α) :=
  fetchChunk server (windowSize + 1) start windowSize

/-- `fetchPage`: a page by anchor on the row the page before ends on; by position when no row
precedes it or the anchor left. -/
def fetchPage (server : Results α) (page : Nat) (anchor : Option α) : List α :=
  let byPosition := (fetchWindow server (.position (page * windowSize))).getD []
  match anchor with
  | none => byPosition
  | some id => (fetchWindow server (.anchor id)).getD byPosition

/-! ## The search as the account holds it -/

/-- A search: its pages, the total its first page brought and the thread of every id held. -/
structure SearchRow (α : Type) where
  total : Option Nat
  pages : List (Nat × List α)
  threadIds : List (α × α)
deriving DecidableEq

namespace SearchRow

variable (row : SearchRow α)

def empty : SearchRow α := ⟨none, [], []⟩

/-- The held pages by number. -/
def sorted : List (Nat × List α) := row.pages.insertionSort fun a b => a.1 ≤ b.1

/-- The ids held, each where it came first. -/
def ids : List α := firsts (row.sorted.flatMap Prod.snd)

def lastPage : Option (Nat × List α) := row.sorted.getLast?

/-- A full last page says the server holds more. -/
def hasMore : Bool :=
  match row.lastPage with
  | none => false
  | some page => page.2.length = windowSize

/-- The threads the ids of the held pages stand for. -/
def threads : Nat := (firsts (row.threadIds.map Prod.snd)).length

/-- `withPage`: the row with the page; the total is the first page's. A page fetched anew takes the
place of the one held, and the pages after it go with it. -/
def withPage (page : Nat) (ids : List α) (total : Option Nat) : SearchRow α :=
  let kept := if row.pages.any fun held => held.1 = page then
    row.pages.filter fun held => held.1 < page else row.pages
  { row with
    total := if page = 0 then total else row.total
    pages := kept ++ [(page, ids)] }

/-- `landed`: one more page with the threads of its emails; an id no page brought a thread for stands
for one of its own. -/
def landed (server : Results α) (page : Nat) (ids : List α) : SearchRow α :=
  let paged := row.withPage page ids (some server.ids.length)
  let known id := if id ∈ ids then some (server.thread id)
    else (row.threadIds.find? fun entry => entry.1 = id).map Prod.snd
  { paged with
    threadIds := (firsts (paged.pages.flatMap Prod.snd)).map fun id => (id, (known id).getD id) }

/-- The rows the held pages show: of the ids the store shows in the scope, the first of each
thread. -/
def shown (server : Results α) (shows : α → Bool) : List α :=
  (row.ids.filter shows).foldl (fun rows id =>
    if rows.any fun other => server.thread other = server.thread id then rows else rows ++ [id]) []

end SearchRow

/-- One page of a search as the client renders it. -/
structure ListPage (α : Type) where
  rows : List α
  total : Option Nat

/-- `pageFrom`: the rows from the page's place on, the total less the held threads that show no row,
exact once the server has no more. -/
def pageFrom (server : Results α) (shows : α → Bool) (row : SearchRow α) (page : Nat) : ListPage α :=
  let shown := row.shown server shows
  let hidden := row.threads - shown.length
  { rows := (shown.drop (page * windowSize)).take windowSize
    total := if row.hasMore then row.total.map fun total => max shown.length (total - hidden)
      else some shown.length }

/-! ## One ask -/

/-- One page of a search as a caller asks it; `shows` is what the store shows in the scope then. -/
structure SearchAsk (α : Type) where
  page : Nat
  again : Bool
  shows : α → Bool

variable (server : Results α) (ask : SearchAsk α)

/-- `firstGathered`: the search as the account holds it, else its first page from the server. -/
def firstGathered (held : Option (SearchRow α)) : SearchRow α :=
  let anew := ask.again && ask.page = 0
  match if anew then none else held with
  | some row => row
  | none => SearchRow.empty.landed server 0 (fetchPage server 0 none)

/-- Whether the rows reach the page asked or the server has no more. -/
def gathers (row : SearchRow α) : Bool :=
  (row.shown server ask.shows).length < (ask.page + 1) * windowSize && row.hasMore

/-- The number of the server's next page. -/
def nextPage (row : SearchRow α) : Nat := (row.lastPage.map (·.1 + 1)).getD 0

/-- The ids of the server's next page, asked by anchor on the last row shown. -/
def nextIds (row : SearchRow α) : List α :=
  fetchPage server (nextPage row) (row.shown server ask.shows).getLast?

/-- The search with the server's next page. -/
def next (row : SearchRow α) : SearchRow α :=
  row.landed server (nextPage row) (nextIds server ask row)

/-- Whether the next page brings an id the search did not hold. -/
def brings (row : SearchRow α) : Bool :=
  (nextIds server ask row).any fun id => !row.pages.any fun held => id ∈ held.2

/-- `gathered`: pages are fetched until the rows reach the page asked or the server has no more; one
that brings no id the search did not hold is kept and ends the gathering. None where it needs more
requests than given. -/
def gathered : Nat → SearchRow α → Option (SearchRow α)
  | 0, _ => none
  | requests + 1, row =>
    if gathers server ask row then
      if brings server ask row then gathered requests (next server ask row)
      else some (next server ask row)
    else some row

/-- `searchWindow`: one page, and the search as it is held then. -/
def searchWindow (requests : Nat) (held : Option (SearchRow α)) :
    Option (SearchRow α × ListPage α) :=
  (gathered server ask requests (firstGathered server ask held)).map fun row =>
    (row, pageFrom server ask.shows row ask.page)

end

end Huliho.Search
