import Mathlib.Algebra.GroupWithZero.Nat
import Mathlib.Data.List.Basic

/-!
# Commands and responses

What the read and the write commands of a session share: the failures in fixed words, the lines an
answer is made of and the bound on a command. A text is the list of its characters and takes the bytes
of its UTF-8 form (`byteLength`).
-/

namespace Huliho.Session

/-- A failure of the session's own, in fixed words. -/
inductive SessionError
  | protocol (words : String)
deriving DecidableEq

abbrev Text := List Char

/-- The bytes of a text. -/
def byteLength (text : Text) : Nat := (text.map Char.utf8Size).sum

theorem byteLength_append (a b : Text) : byteLength (a ++ b) = byteLength a + byteLength b := by
  rw [byteLength, List.map_append, List.sum_append, byteLength, byteLength]

@[simp] theorem byteLength_nil : byteLength [] = 0 := rfl

theorem byteLength_cons (c : Char) (text : Text) :
    byteLength (c :: text) = c.utf8Size + byteLength text := by
  rw [byteLength, List.map_cons, List.sum_cons, byteLength]

/-- The longest command the bridge builds, tag and line end not counted. -/
def MAX_COMMAND_BYTES : Nat := 8192

def LINE_LIMIT : String := "the command passes the line limit"

/-- The command as built; past the bound it is never sent. -/
def fitting (command : Text) : Except SessionError Text :=
  if MAX_COMMAND_BYTES < byteLength command then .error (.protocol LINE_LIMIT) else .ok command

/-- A member of a UID set as the parser hands it over: a range from its low end to its high end. -/
inductive UidSetMember
  | uid (uid : Nat)
  | uidRange (start stop : Nat) (ordered : start ≤ stop)
deriving DecidableEq

/-- A range as it may be written: in either order. -/
def UidSetMember.written (a b : Nat) : UidSetMember :=
  .uidRange (min a b) (max a b) (Nat.le_trans (Nat.min_le_left a b) (Nat.le_max_left a b))

inductive Status
  | ok
  | no
  | bad
  | preauth
  | bye
deriving DecidableEq

inductive ResponseCode
  | copyUid (uidValidity : Nat) (source target : List UidSetMember)
  | other
deriving DecidableEq

/-- A line of an answer: an untagged or a tagged status, a line of the mailbox, or any other. -/
inductive Response
  | data (status : Status) (code : Option ResponseCode)
  | done (status : Status) (code : Option ResponseCode)
  | expunge (seq : Nat)
  | exists (messages : Nat)
  | search (uids : List Nat)
  | other
deriving DecidableEq

end Huliho.Session
