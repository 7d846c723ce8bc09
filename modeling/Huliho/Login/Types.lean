import Huliho.Lib.Record
import Huliho.Lib.Steps

/-!
# Signing in

`auth/mod.rs`, `auth/one_time.rs`, `session/open.rs`, `session/password.rs` and the two handlers that
call them, for one user: the credential columns of the user's row, the session rows, and the
sign-ins and password changes under way. A sign-in reads the row, judges the password against what it
read and opens its session in a later transaction; a reset is one transaction, a change is judged
first and then one.

Hashing is a parameter: `verifies password hash` is what the hasher says of the two. The sealing of a
row, the device, the address and the timeouts of a session do not touch which sessions a credential
opens and are left out.
-/

namespace Huliho.Login

/-- What the store knows of a password. -/
abbrev Hash := String

abbrev Token := Nat

abbrev TaskId := Nat

/-- The typed form of a one-time password: the display hyphens are not part of the secret. -/
def typed (entered : String) : String := String.ofList (entered.toList.filter (· ≠ '-'))

/-- A credential a commit stored: a chosen password, or a one-time one. -/
structure Credential where
  hash : Hash
  oneTime : Bool
deriving DecidableEq

/-- Whether a password as entered is the credential's. -/
def Credential.accepts (verifies : String → Hash → Bool) (credential : Credential)
    (entered : String) : Bool :=
  verifies (if credential.oneTime then typed entered else entered) credential.hash

/-- The credential columns of the user's row. -/
structure StoredPassword where
  hash : Option Hash
  oneTimeExpiresAt : Option Nat
deriving DecidableEq

/-- What a login attempt came to. -/
inductive LoginOutcome
  | verified
  /-- A live one-time password matched. -/
  | verifiedOneTime
  | rejected
deriving DecidableEq

/-- The password against the columns as read, at an instant. -/
def outcomeOf (verifies : String → Hash → Bool) (stored : StoredPassword) (entered : String)
    (now : Nat) : LoginOutcome :=
  match stored.hash with
  | none => .rejected
  | some hash =>
    match stored.oneTimeExpiresAt with
    | none => if verifies entered hash then .verified else .rejected
    | some expiresAt =>
      if now < expiresAt ∧ verifies (typed entered) hash then .verifiedOneTime else .rejected

/-- A session row, with the password that opened it and the commits that rotated it. -/
structure Session where
  passwordChangeRequired : Bool
  entered : String
  changes : List Nat
deriving DecidableEq

/-- How far a sign-in is. -/
inductive SignInPhase
  | started
  | read (stored : StoredPassword)
  | judged (outcome : LoginOutcome)
  /-- The row is prepared: its token and when it was created. -/
  | prepared (oneTime : Bool) (token : Token) (createdAt : Nat)
  | done
deriving DecidableEq

structure SignIn where
  entered : String
  phase : SignInPhase
deriving DecidableEq

/-- A password change under way: the session it was made in, the current password where one is
required, and the hash of the chosen one once the current one is judged. -/
structure Change where
  session : Token
  current : Option String
  ready : Option Hash
deriving DecidableEq

/-- A one-time password spent: which commit stored it, and the password that spent it. -/
structure Spend where
  commit : Nat
  entered : String
deriving DecidableEq

/-- One user as the tasks leave it. -/
structure State where
  user : StoredPassword
  sessions : Record Token Session
  signIns : Record TaskId SignIn
  changes : Record TaskId Change
  now : Nat
  /-- The resets and the changes committed so far, and the credential each of them stored; the first
  entry is the one the user began with. -/
  commit : Nat
  credentials : Record Nat Credential
  spends : List Spend

/-- The credential the columns hold, if they hold one. -/
def StoredPassword.credential (stored : StoredPassword) : Option Credential :=
  stored.hash.map fun hash => ⟨hash, stored.oneTimeExpiresAt.isSome⟩

/-- A user with some sessions and no task under way. -/
def State.idle (user : StoredPassword) (sessions : Record Token Session) : State where
  user
  sessions
  signIns := Table.empty
  changes := Table.empty
  now := 0
  commit := 0
  credentials := match user.credential with
    | none => Table.empty
    | some credential => Record.put Table.empty 0 credential
  spends := []

inductive Action
  | tick (elapsed : Nat)
  | signIn (id : TaskId) (entered : String)
  /-- The read of `verify_login`. -/
  | read (id : TaskId)
  | judge (id : TaskId)
  | prepare (id : TaskId) (token : Token)
  /-- The transaction that opens the session. -/
  | openSession (id : TaskId)
  | reset (hash : Hash) (expiresAt : Nat)
  | change (id : TaskId) (session : Token) (current : Option String)
  | verify (id : TaskId) (hash : Hash)
  | applyChange (id : TaskId) (token : Token)
  | revoke (token : Token)
deriving DecidableEq

/-! ## The transactions -/

namespace State

variable (s : State)

/-- A commit stores a credential. -/
def store (user : StoredPassword) (credential : Credential) : State :=
  { s with
    user
    commit := s.commit + 1
    credentials := s.credentials.put (s.commit + 1) credential }

/-- The session row of a sign-in. -/
def insert (token : Token) (entered : String) (passwordChangeRequired : Bool) : State :=
  { s with sessions := s.sessions.put token ⟨passwordChangeRequired, entered, []⟩ }

/-- `create`: the ordinary session. -/
def create (token : Token) (entered : String) : State := s.insert token entered false

/-- Whether a one-time password is live. -/
def live (now : Nat) : Bool :=
  match s.user.oneTimeExpiresAt with
  | none => false
  | some expiresAt => now < expiresAt

/-- `create_for_password_change`: the one-time password is spent in the transaction that opens its
session; none where no live one remains. -/
def createForPasswordChange (token : Token) (entered : String) (createdAt : Nat) : Option State :=
  if s.live createdAt then
    some { s.insert token entered true with
      user := ⟨none, none⟩
      spends := ⟨s.commit, entered⟩ :: s.spends }
  else none

/-- `reset_password`: a one-time password in place of the user's, and no session. -/
def resetPassword (hash : Hash) (expiresAt : Nat) : State :=
  { s.store ⟨some hash, some expiresAt⟩ ⟨hash, true⟩ with sessions := Table.empty }

/-- `apply_password_change`: the chosen password, the session it was made in rotated and every other
one ended; none where that session is gone. -/
def applyPasswordChange (current : Token) (hash : Hash) (token : Token) : Option State :=
  match s.sessions.get current with
  | none => none
  | some session =>
    some { s.store ⟨some hash, none⟩ ⟨hash, false⟩ with
      sessions := Record.put Table.empty token
        ⟨false, session.entered, (s.commit + 1) :: session.changes⟩ }

/-- A sign-in that came to its end. -/
def closed (id : TaskId) (entered : String) : State :=
  { s with signIns := s.signIns.put id ⟨entered, .done⟩ }

end State

/-! ## One step -/

/-- One action; none where it does not apply. A token opens one row. -/
def step (verifies : String → Hash → Bool) (s : State) : Action → Option State
  | .tick elapsed => some { s with now := s.now + elapsed }
  | .signIn id entered =>
    match s.signIns.get id with
    | none => some { s with signIns := s.signIns.put id ⟨entered, .started⟩ }
    | some _ => none
  | .read id =>
    match s.signIns.get id with
    | some ⟨entered, .started⟩ =>
      some { s with signIns := s.signIns.put id ⟨entered, .read s.user⟩ }
    | _ => none
  | .judge id =>
    match s.signIns.get id with
    | some ⟨entered, .read stored⟩ =>
      some { s with
        signIns := s.signIns.put id ⟨entered, .judged (outcomeOf verifies stored entered s.now)⟩ }
    | _ => none
  | .prepare id token =>
    match s.signIns.get id with
    | some ⟨entered, .judged .verified⟩ =>
      some { s with signIns := s.signIns.put id ⟨entered, .prepared false token s.now⟩ }
    | some ⟨entered, .judged .verifiedOneTime⟩ =>
      some { s with signIns := s.signIns.put id ⟨entered, .prepared true token s.now⟩ }
    | _ => none
  | .openSession id =>
    match s.signIns.get id with
    | some ⟨entered, .prepared oneTime token createdAt⟩ =>
      if s.sessions.get token = none then
        let opened := if oneTime then (s.createForPasswordChange token entered createdAt).getD s
          else s.create token entered
        some (opened.closed id entered)
      else none
    | _ => none
  | .reset hash expiresAt => some (s.resetPassword hash expiresAt)
  | .change id session current =>
    match s.changes.get id, s.sessions.get session with
    | none, some row =>
      -- The forced step verifies no current password, every other one does.
      if row.passwordChangeRequired ∨ current.isSome then
        let required := if row.passwordChangeRequired then none else current
        some { s with changes := s.changes.put id ⟨session, required, none⟩ }
      else none
    | _, _ => none
  | .verify id hash =>
    match s.changes.get id with
    | some ⟨session, none, none⟩ =>
      some { s with changes := s.changes.put id ⟨session, none, some hash⟩ }
    | some ⟨session, some current, none⟩ =>
      match s.user.hash, s.user.oneTimeExpiresAt with
      | some stored, none =>
        if verifies current stored then
          some { s with changes := s.changes.put id ⟨session, some current, some hash⟩ }
        else none
      | _, _ => none
    | _ => none
  | .applyChange id token =>
    match s.changes.get id with
    | some ⟨session, _, some hash⟩ => s.applyPasswordChange session hash token
    | _ => none
  | .revoke token => some { s with sessions := s.sessions.only (· ≠ token) }

end Huliho.Login
