import Huliho.Store.Changes

/-!
# `/changes` over the log

`jmap/changes.rs`: the rows since a state folded into the three lists, cut at a sequence when the
client caps the answer. A first sequence above the cap leaves no state to cut at, which answers
`cannotCalculateChanges`.

`fold` is the answer's window, `cut` where its rows end and `advance` the step both loops share: a
`BTreeMap` of fates, here the ordered map of the standard library. The three methods are one
function, `changes`, at a type of its own.
-/

namespace Huliho.Jmap

/-- A method-level error, those a `/changes` can answer. -/
inductive MethodError
  | invalidArguments (why : String)
  | accountNotFound
  | cannotCalculateChanges
deriving DecidableEq, Repr

/-- The arguments of a `/changes`. -/
structure ChangesArguments where
  accountId : String
  sinceState : String
  maxChanges : Option Nat

/-- What a method reads: the key of its account and the account's rows. -/
structure Context where
  key : String
  store : Tables

/-- The one account this endpoint serves. -/
def Context.account (context : Context) (id : String) : Except MethodError Unit :=
  if id = context.key then .ok () else .error .accountNotFound

/-- A `maxChanges` of zero leaves no room for an answer. -/
def checked (arguments : ChangesArguments) : Except MethodError Unit :=
  if arguments.maxChanges = some 0 then
    .error (.invalidArguments "maxChanges must be above zero")
  else .ok ()

/-! ## Fates -/

/-- What one id went through since the old state. -/
inductive Fate
  | created
  | updated
  | destroyed
  | gone
deriving DecidableEq, Repr

namespace Fate

def start : ChangeKind → Fate
  | .created => created
  | .updated => updated
  | .destroyed => destroyed

/-- Whether one of the three lists names the id. -/
def listed (fate : Fate) : Bool := fate ≠ gone

/-- Created then updated stays created, created then destroyed leaves the answer. A create after a
destroy reads as created for an id that left, as updated for one the old state held. -/
def next : Fate → ChangeKind → Fate
  | gone, .created => created
  | gone, _ | created, .destroyed => gone
  | created, _ => created
  | _, .destroyed => destroyed
  | updated, .updated => updated
  | destroyed, .updated => destroyed
  | updated, .created | destroyed, .created => updated

end Fate

/-- The fates by id, in the order of the ids. -/
abbrev Fates := Std.TreeMap String Fate

/-- Moves the fate of the row's id on by that row; with it the fate before and the fate after. -/
def advance (fates : Fates) (row : Change) : Fates × Option Fate × Fate :=
  let before := fates[row.id]?
  let after := before.elim (Fate.start row.kind) fun fate => fate.next row.kind
  (fates.insert row.id after, before, after)

/-! ## The cut -/

/-- What the loop of `cut` carries: the fates, how many of them are listed and where the sequence
of the row before starts. -/
structure Cutting where
  fates : Fates
  listed : Nat
  start : Nat

/-- The loop of `cut` over the rows from `index` on; the row after one is the head of the rest. -/
def cutFrom (rows : List Change) (max : Nat) : List Change → Nat → Cutting → Nat
  | [], _, _ => rows.length
  | row :: rest, index, loop =>
    let start :=
      if rows[loop.start]?.map Change.sequence = some row.sequence then loop.start else index
    let (fates, before, after) := advance loop.fates row
    let listed := loop.listed + after.listed.toNat - (before.any Fate.listed).toNat
    let closes := rest.head?.all fun following => following.sequence ≠ row.sequence
    if closes ∧ max < listed then start
    else cutFrom rows max rest (index + 1) ⟨fates, listed, start⟩

/-- Where the first sequence starts that carries the three lists past `max` ids, the end of the
rows when none does. -/
def cut (rows : List Change) (max : Nat) : Nat := cutFrom rows max rows 0 ⟨∅, 0, 0⟩

/-! ## The window -/

/-- The three lists after the fold, the state they reach and whether the log holds more. -/
structure Window where
  created : List String
  updated : List String
  destroyed : List String
  newState : Nat
  hasMore : Bool
deriving DecidableEq, Repr

/-- The fates after the rows. -/
def fatesOf (rows : List Change) : Fates := rows.foldl (fun fates row => (advance fates row).1) ∅

/-- The ids of one fate, in order. -/
def ofFate (fates : Fates) (fate : Fate) : List String :=
  (fates.toList.filter fun entry => entry.2 = fate).map Prod.fst

/-- Folds the rows sequence by sequence; a sequence enters whole or not at all. `none` when the
first sequence alone lists more ids than `maxChanges`, since no state lies between the old one and
it. -/
def fold (rows : List Change) (maxChanges : Option Nat) (current : Nat) : Option Window := do
  let cut := maxChanges.elim rows.length (cut rows)
  let newState ←
    if cut < rows.length then (rows.take cut).getLast?.map Change.sequence else some current
  let fates := fatesOf (rows.take cut)
  pure ⟨ofFate fates .created, ofFate fates .updated, ofFate fates .destroyed, newState,
    cut < rows.length⟩

/-! ## The methods -/

/-- The answer of a `/changes`. -/
structure ChangesAnswer where
  accountId : String
  oldState : String
  newState : String
  hasMoreChanges : Bool
  created : List String
  updated : List String
  destroyed : List String
deriving DecidableEq, Repr

/-- The log issues a state as the plain decimal text of its number, and takes no other spelling of
one back. -/
def stateNamed (text : String) : Option Nat :=
  let number := Nat.ofDigitChars 10 text.toList 0
  if number.repr = text then some number else none

/-- What a missing value answers. -/
def calculated {α : Type} : Option α → Except MethodError α
  | some a => .ok a
  | none => .error .cannotCalculateChanges

/-- The `/changes` answer for one object type. -/
def changes (context : Context) (arguments : ChangesArguments) (object : ObjectType) :
    Except MethodError ChangesAnswer := do
  context.account arguments.accountId
  checked arguments
  let since ← calculated (stateNamed arguments.sinceState)
  let read := changesSince context.store object since
  let rows ← calculated read.changes
  let window ← calculated (fold rows arguments.maxChanges read.state)
  pure ⟨context.key, arguments.sinceState, window.newState.repr, window.hasMore, window.created,
    window.updated, window.destroyed⟩

/-- `Mailbox/changes`: `updatedProperties` is null, since the log names no property. -/
def mailboxChanges (context : Context) (arguments : ChangesArguments) :
    Except MethodError (ChangesAnswer × Option (List String)) := do
  let answer ← changes context arguments .mailbox
  pure (answer, none)

/-- `Email/changes`. -/
def emailChanges (context : Context) (arguments : ChangesArguments) :
    Except MethodError ChangesAnswer :=
  changes context arguments .email

/-- `Thread/changes`. -/
def threadChanges (context : Context) (arguments : ChangesArguments) :
    Except MethodError ChangesAnswer :=
  changes context arguments .thread

/-! ## States and their names -/

/-- **A state's name reads back as the state.** -/
@[simp] theorem stateNamed_repr (state : Nat) : stateNamed state.repr = some state := by
  simp [stateNamed]

@[simp] theorem calculated_eq_ok {α : Type} {o : Option α} {a : α} :
    calculated o = .ok a ↔ o = some a := by
  cases o <;> simp [calculated]

end Huliho.Jmap
