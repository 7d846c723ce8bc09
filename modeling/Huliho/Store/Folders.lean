import Huliho.Store.Threads

/-!
# Folders that vanish or are renumbered

`folders.rs`: what happens to the emails of a folder that vanished or that the server renumbered.
The rows `leave` logs go straight into the log, each as an upsert of its own (`logOver`), so they
meet the rows the same write logged before — and the rows it logs after.
-/

namespace Huliho

/-- The rows of one renumbered folder that wait for a match. A larger folder is destroyed and
synced afresh. -/
def REMATCH_LIMIT : Nat := 100000

/-- What names a message across a renumbering where the server has no id of its own: the keyed
hash of its Message-ID, INTERNALDATE and size. -/
abbrev Identity := Option Bytes × Int × Nat

def EmailRecord.identity (r : EmailRecord) : Identity := (r.messageIdHash, r.receivedAt, r.size)

/-- A folder as a fetch saw it. -/
structure Standing where
  folder : MailboxId
  uidValidity : Nat
deriving DecidableEq, Repr

/-- `UPDATE bridge_mailboxes … WHERE id = folder` of columns no constraint reads. -/
def MailboxRecord.onId (folder : MailboxId) (f : MailboxRecord → MailboxRecord)
    (r : MailboxRecord) : MailboxRecord :=
  if r.row.id = folder then f r else r

/-- The row under a UIDVALIDITY. -/
def MailboxRecord.numbered (uidValidity : Nat) (r : MailboxRecord) : MailboxRecord :=
  { r with row.facts.uidValidity := some uidValidity }

theorem MailboxRecord.numbered_apart (folder : MailboxId) (v : Nat) (a b : MailboxRecord)
    (h : a.Apart b) :
    (a.onId folder (MailboxRecord.numbered v)).Apart (b.onId folder (MailboxRecord.numbered v)) := by
  unfold MailboxRecord.onId
  split <;> split <;> exact h

/-- Whether the folder row stands under the UIDVALIDITY the fetch ran under. A row that holds none
yet takes this one and stands. -/
def pinned (t : Tables) (standing : Standing) : Tables × Bool :=
  match t.mailboxes.find? fun r => r.row.id = standing.folder with
  | none => (t, false)
  | some r =>
    match r.row.facts.uidValidity with
    | none =>
      ({ t with
        mailboxes := t.mailboxes.revise
          (MailboxRecord.onId standing.folder (MailboxRecord.numbered standing.uidValidity))
          (MailboxRecord.numbered_apart _ _) }, true)
    | some uidValidity => (t, uidValidity = standing.uidValidity)

/-! ## Rows that step onto the log -/

/-- The kind of the row of one object under a sequence, changed in place. -/
def LogRow.over (sequence : Nat) (x : Slot) (onConflict : ChangeKind → ChangeKind)
    (row : LogRow) : LogRow :=
  if row.sequence = sequence ∧ row.slot = x then { row with kind := onConflict row.kind } else row

theorem LogRow.over_apart (s : Nat) (x : Slot) (f : ChangeKind → ChangeKind) (a b : LogRow)
    (h : a.Apart b) : (a.over s x f).Apart (b.over s x f) := by
  unfold LogRow.over
  split <;> split <;> exact h

/-- `INSERT … ON CONFLICT (sequence, type, id) DO UPDATE SET kind = onConflict kind`; with the
identity it is `DO NOTHING`. -/
def logOver (t : Tables) (sequence : Nat) (x : Slot) (kind : ChangeKind)
    (onConflict : ChangeKind → ChangeKind) : Tables :=
  { t with
    changes := t.changes.upsert (LogRow.over sequence x onConflict)
      (LogRow.over_apart _ _ _) ⟨sequence, x.1, x.2, kind⟩ }

/-- One such statement over the distinct rows of a `SELECT`. -/
def logEach (t : Tables) (sequence : Nat) (kind : Slot → ChangeKind)
    (onConflict : ChangeKind → ChangeKind → ChangeKind) (xs : List Slot) : Tables :=
  xs.foldl (fun t x => logOver t sequence x (kind x) (onConflict (kind x))) t

/-! ## Leaving -/

/-- Which rows of a folder leave. -/
inductive Leaving
  /-- Every row: the folder vanished. -/
  | all
  /-- The rows a renumbering left without a match; they wait under a negative UID. -/
  | unmatched
deriving DecidableEq, Repr

/-- The rows below this UID leave: `i64::MAX` for every row. -/
def Leaving.below : Leaving → Int
  | .all => 9223372036854775807
  | .unmatched => 0

/-- The row leaves. -/
def Leaves (folder : MailboxId) (leaving : Leaving) (r : EmailRecord) : Prop :=
  r.folderId = folder ∧ r.uid < leaving.below

instance (folder : MailboxId) (leaving : Leaving) : DecidablePred (Leaves folder leaving) :=
  fun _ => inferInstanceAs (Decidable (_ ∧ _))

/-- The mailboxes beyond the folder that the leaving rows are members of. -/
def leavingMailboxes (t : Tables) (folder : MailboxId) (leaving : Leaving) : List Slot :=
  ((t.memberships.rows.filter fun m => m.mailboxId ≠ folder ∧
    ∃ e ∈ t.emails.rows, e.id = m.emailId ∧ Leaves folder leaving e).map
      fun m => (ObjectType.mailbox, m.mailboxId)).dedup

/-- The threads the leaving rows are in. -/
def leavingThreads (t : Tables) (folder : MailboxId) (leaving : Leaving) : List Slot :=
  ((t.emails.rows.filter fun e => Leaves folder leaving e).map
    fun e => (ObjectType.thread, e.threadId)).dedup

/-- The leaving rows. -/
def leavingEmails (t : Tables) (folder : MailboxId) (leaving : Leaving) : List Slot :=
  (t.emails.rows.filter fun e => Leaves folder leaving e).map fun e => (ObjectType.email, e.id)

/-- A thread the leaving rows are in is updated while another row is in it. -/
def leavingThreadKind (t : Tables) (folder : MailboxId) (leaving : Leaving) (x : Slot) :
    ChangeKind :=
  if ∃ o ∈ t.emails.rows, o.threadId = x.2 ∧ ¬ Leaves folder leaving o then .updated
  else .destroyed

/-- `CASE WHEN kind = 'created' AND excluded.kind = 'updated' THEN 'created' ELSE excluded.kind`. -/
def threadOnConflict : ChangeKind → ChangeKind → ChangeKind
  | .updated, .created => .created
  | excluded, _ => excluded

/-- Destroys the leaving rows with their memberships under the write's sequence. A thread is
destroyed with its hashes when its last email leaves and updated otherwise; a mailbox the rows
were members of beyond the folder reads as updated. -/
def leave (t : Tables) (folder : MailboxId) (sequence : Nat) (leaving : Leaving) : Tables :=
  let scope := Leaves folder leaving
  let logged := logEach t sequence (fun _ => .updated) (fun _ kind => kind)
    (leavingMailboxes t folder leaving)
  let logged := logEach logged sequence (leavingThreadKind t folder leaving) threadOnConflict
    (leavingThreads t folder leaving)
  let logged := logEach logged sequence (fun _ => .destroyed) (fun excluded _ => excluded)
    (leavingEmails t folder leaving)
  { logged with
    memberships := t.memberships.delete fun m =>
      ∃ e ∈ t.emails.rows, scope e ∧ e.id = m.emailId
    emails := t.emails.delete scope
    messageIds := t.messageIds.delete fun r =>
      ∃ row ∈ logged.changes.rows, row.sequence = sequence ∧ row.object = .thread ∧
        row.kind = .destroyed ∧ row.id = r.threadId }

/-- The progress of a folder starts over. -/
def forgetProgress (t : Tables) (folder : MailboxId) : Tables :=
  { t with sync := t.sync.delete fun s => s.folderId = folder }

/-- The members of a mailbox. -/
def membersOf (t : Tables) (mailbox : MailboxId) : List Slot :=
  (t.memberships.rows.filter fun m => m.mailboxId = mailbox).map
    fun m => (ObjectType.email, m.emailId)

/-- The folder vanished: its rows leave and its progress with them. A label mailbox holds rows of
another folder as members; they lose the membership and read as updated. -/
def vanish (t : Tables) (folder : MailboxId) (sequence : Nat) : Tables :=
  let t := leave t folder sequence .all
  let logged := logEach t sequence (fun _ => .updated) (fun _ kind => kind) (membersOf t folder)
  let t := { logged with memberships := t.memberships.delete fun m => m.mailboxId = folder }
  forgetProgress t folder

/-- The rows of a folder that hold a live UID. -/
def heldUids (t : Tables) (folder : MailboxId) : Nat :=
  (t.emails.rows.filter fun e => e.folderId = folder ∧ 0 < e.uid).length

/-- What leaves of a renumbered folder: what an earlier renumbering left waiting, or every row of
a folder past `REMATCH_LIMIT`. -/
def renumberLeaving (t : Tables) (folder : MailboxId) : Leaving :=
  if heldUids t folder > REMATCH_LIMIT then .all else .unmatched

/-- `UPDATE bridge_emails SET uid = -uid WHERE folder_id = folder AND uid > 0`. -/
def EmailRecord.wait (folder : MailboxId) (r : EmailRecord) : EmailRecord :=
  if r.folderId = folder ∧ 0 < r.uid then { r with uid := -r.uid } else r

/-- The server renumbered the folder: its rows wait under negative UIDs for the fresh sync to
match them and the progress starts over. What an earlier renumbering left waiting leaves first, so
no two rows share a UID; a folder past `REMATCH_LIMIT` leaves whole. -/
def renumber (t : Tables) (folder : MailboxId) (sequence : Nat) : Except StoreError Tables := do
  let t := leave t folder sequence (renumberLeaving t folder)
  let emails ← constrained (t.emails.update? (EmailRecord.wait folder))
  pure (forgetProgress { t with emails } folder)

/-- The waiting rows of a folder by what names them. -/
def unmatched (t : Tables) (folder : MailboxId) : List (Identity × EmailId) :=
  (t.emails.rows.filter fun e => e.folderId = folder ∧ e.uid < 0).map
    fun e => ((e.messageIdHash, e.receivedAt, e.size), e.id)

/-- The waiting row an identity takes: the last that waits under it. -/
def popWaiting (waiting : List (Identity × EmailId)) (identity : Identity) :
    Option EmailId × List (Identity × EmailId) :=
  match waiting.reverse.find? fun w => w.1 = identity with
  | some (_, id) => (some id, waiting.filter fun w => w.2 ≠ id)
  | none => (none, waiting)

/-! ## The log after those rows -/

/-- The rows of the log after the upsert. -/
theorem mem_logOver {t : Tables} {s : Nat} {x : Slot} {k : ChangeKind}
    {f : ChangeKind → ChangeKind} {row : LogRow} :
    row ∈ (logOver t s x k f).changes ↔
      (row ∈ t.changes ∧ ¬(row.sequence = s ∧ row.slot = x)) ∨
        row = ⟨s, x.1, x.2, ((entryAt t s x).map f).getD k⟩ := by
  have hapart : ∀ r : LogRow, r.Apart ⟨s, x.1, x.2, k⟩ ↔ ¬(r.sequence = s ∧ r.slot = x) :=
    fun r => by simp [LogRow.Apart, LogRow.slot, Prod.ext_iff]
  have hat : ∀ r : LogRow, r.sequence = s ∧ r.slot = x → r = ⟨s, x.1, x.2, r.kind⟩ := by
    rintro r ⟨rfl, rfl⟩
    rfl
  have hkept : ∀ r : LogRow, r.Apart ⟨s, x.1, x.2, k⟩ → r.over s x f = r := fun r hr =>
    if_neg ((hapart r).1 hr)
  have hhit : ∀ r : LogRow, r.sequence = s ∧ r.slot = x →
      r.over s x f = ⟨s, x.1, x.2, f r.kind⟩ := fun r hr => by
    rw [LogRow.over, if_pos hr, hat r hr]
  have hstill : ∀ r : LogRow, ¬ r.Apart ⟨s, x.1, x.2, k⟩ →
      ¬ (r.over s x f).Apart ⟨s, x.1, x.2, k⟩ := fun r hr => by
    rw [hhit r (not_not.1 fun h => hr ((hapart r).2 h)), hapart, not_not]
    exact ⟨rfl, rfl⟩
  rw [logOver, Table.mem_upsert hkept hstill]
  simp only [hapart, not_not]
  refine or_congr_right ?_
  cases he : entryAt t s x with
  | none =>
    have hnone := entryAt_eq_none.1 he
    constructor
    · rintro (⟨r, hr, hc, -⟩ | ⟨hrow, -⟩)
      · exact absurd hc.2 (hnone r hr hc.1)
      · exact hrow
    · exact fun hrow => .inr ⟨hrow, fun r hr hc => hnone r hr hc.1 hc.2⟩
  | some k₁ =>
    have hk₁ := entryAt_eq_some.1 he
    constructor
    · rintro (⟨r, hr, hc, rfl⟩ | ⟨-, hc⟩)
      · have hone : r = ⟨s, x.1, x.2, k₁⟩ :=
          t.changes.unique hr hk₁ fun h => (hapart _).1 (hat r hc ▸ h) ⟨rfl, rfl⟩
        rw [hhit r hc, hone]
        rfl
      · exact absurd ⟨rfl, rfl⟩ (hc _ hk₁)
    · rintro rfl
      exact .inl ⟨_, hk₁, ⟨rfl, rfl⟩, hhit _ ⟨rfl, rfl⟩⟩

/-- The row of the upsert stands under the sequence, every other row as it was. -/
theorem entryAt_logOver (t : Tables) (s : Nat) (x : Slot) (k : ChangeKind)
    (f : ChangeKind → ChangeKind) (s' : Nat) (y : Slot) :
    entryAt (logOver t s x k f) s' y =
      if s' = s ∧ y = x then some (((entryAt t s x).map f).getD k) else entryAt t s' y := by
  apply Option.ext
  intro k'
  rw [entryAt_eq_some, mem_logOver]
  split
  · rename_i hsy
    obtain ⟨rfl, rfl⟩ := hsy
    simp [LogRow.slot, eq_comm]
  · rename_i hsy
    have hne : (⟨s', y.1, y.2, k'⟩ : LogRow) ≠
        ⟨s, x.1, x.2, ((entryAt t s x).map f).getD k⟩ := fun h => by
      obtain ⟨h1, h2, h3, -⟩ := LogRow.mk.inj h
      exact hsy ⟨h1, Prod.ext h2 h3⟩
    rw [entryAt_eq_some, or_iff_left hne]
    exact and_iff_left hsy

/-- A statement over distinct objects reaches each of them once. -/
theorem entryAt_logEach {s : Nat} {kind : Slot → ChangeKind}
    {onConflict : ChangeKind → ChangeKind → ChangeKind} :
    ∀ {xs : List Slot} {t : Tables}, xs.Nodup → ∀ s' y,
      entryAt (logEach t s kind onConflict xs) s' y =
        if s' = s ∧ y ∈ xs then some (((entryAt t s y).map (onConflict (kind y))).getD (kind y))
        else entryAt t s' y := by
  intro xs
  induction xs with
  | nil => intro t _ s' y; simp [logEach]
  | cons x xs ih =>
    intro t hnd s' y
    obtain ⟨hx, hnd⟩ := List.nodup_cons.1 hnd
    rw [logEach, List.foldl_cons, ← logEach, ih hnd]
    by_cases hy : y = x
    · subst hy
      by_cases hs : s' = s
      · subst hs
        simp [hx, entryAt_logOver]
      · simp [hs, entryAt_logOver]
    · simp [hy, entryAt_logOver]

theorem logsUnder_logOver {t : Tables} {s : Nat} {x : Slot} {k : ChangeKind}
    {f : ChangeKind → ChangeKind} : LogsUnder s t (logOver t s x k f) := by
  refine ⟨rfl, fun ht hs row hrow => ?_, fun s' y hs => ?_⟩
  · rcases mem_logOver.1 hrow with ⟨hrow, -⟩ | rfl
    · exact ht row hrow
    · exact hs
  · rw [entryAt_logOver, if_neg fun h => hs h.1]

theorem logsUnder_logEach {s : Nat} {kind : Slot → ChangeKind}
    {onConflict : ChangeKind → ChangeKind → ChangeKind} :
    ∀ {xs : List Slot} {t : Tables}, LogsUnder s t (logEach t s kind onConflict xs) := by
  intro xs
  induction xs with
  | nil => exact .refl
  | cons x xs ih => exact logsUnder_logOver.trans ih

end Huliho
