import Huliho.Store.Ledger

/-!
# Threads

`threads.rs`: threads across mailboxes as a union-find over the keyed hashes of message ids. Every
id a header names points at one thread, and a message that names two threads joins them.

A generated id is an input here: `join` takes the id `ThreadId::generate` would answer.
-/

namespace Huliho

/-- One write in its transaction: the rows as they stand inside it and what it logs. -/
structure Writing where
  tables : Tables
  ledger : Ledger

/-- `ORDER BY received_at, id`. -/
def EmailRecord.Before (a b : EmailRecord) : Prop :=
  a.receivedAt < b.receivedAt ∨ (a.receivedAt = b.receivedAt ∧ a.id ≤ b.id)

instance : DecidableRel EmailRecord.Before := fun _ _ => inferInstanceAs (Decidable (_ ∨ _))

/-- The emails of a thread, oldest first. -/
def emailsOf (t : Tables) (thread : ThreadId) : List EmailId :=
  ((t.emails.rows.filter fun r => r.threadId = thread).insertionSort EmailRecord.Before).map
    EmailRecord.id

/-- The thread a hash points at. -/
def threadOf (t : Tables) (hash : Bytes) : Option ThreadId :=
  (t.messageIds.find? fun r => r.messageIdHash = hash).map MessageIdRecord.threadId

/-- The number of emails a thread holds. -/
def size (t : Tables) (thread : ThreadId) : Nat :=
  (t.emails.rows.filter fun r => r.threadId = thread).length

/-- `UPDATE bridge_emails SET thread_id = survivor WHERE thread_id = loser`. -/
def EmailRecord.rethread (loser survivor : ThreadId) (r : EmailRecord) : EmailRecord :=
  if r.threadId = loser then { r with threadId := survivor } else r

/-- `UPDATE bridge_message_ids SET thread_id = survivor WHERE thread_id = loser`. -/
def MessageIdRecord.rethread (loser survivor : ThreadId) (r : MessageIdRecord) :
    MessageIdRecord :=
  if r.threadId = loser then { r with threadId := survivor } else r

theorem EmailRecord.rethread_apart (loser survivor : ThreadId) (a b : EmailRecord)
    (h : a.Apart b) : (a.rethread loser survivor).Apart (b.rethread loser survivor) := by
  unfold EmailRecord.rethread
  split <;> split <;> exact h

theorem MessageIdRecord.rethread_apart (loser survivor : ThreadId) (a b : MessageIdRecord)
    (h : a.Apart b) : (a.rethread loser survivor).Apart (b.rethread loser survivor) := by
  unfold MessageIdRecord.rethread
  split <;> split <;> exact h

/-- Moves the emails and the hashes of `loser` to `survivor`: the thread that loses is destroyed
and each of its emails updated. -/
def merge (w : Writing) (loser survivor : ThreadId) : Writing :=
  let noted := (emailsOf w.tables loser).foldl
    (fun ledger email => ledger.note (.email, email) .updated) w.ledger
  let tables := { w.tables with
    emails := w.tables.emails.revise (EmailRecord.rethread loser survivor)
      (EmailRecord.rethread_apart loser survivor)
    messageIds := w.tables.messageIds.revise (MessageIdRecord.rethread loser survivor)
      (MessageIdRecord.rethread_apart loser survivor) }
  ⟨tables, noted.note (.thread, loser) .destroyed⟩

/-- The row of a hash pointed at `thread`, as the conflict branch of the upsert writes it. -/
def MessageIdRecord.repoint (hash : Bytes) (thread : ThreadId) (r : MessageIdRecord) :
    MessageIdRecord :=
  if r.messageIdHash = hash then { r with threadId := thread } else r

theorem MessageIdRecord.repoint_apart (hash : Bytes) (thread : ThreadId) (a b : MessageIdRecord)
    (h : a.Apart b) : (a.repoint hash thread).Apart (b.repoint hash thread) := by
  unfold MessageIdRecord.repoint
  split <;> split <;> exact h

/-- Points a hash at a thread: the row of the hash takes the thread, a hash without a row gets
one. -/
def point (thread : ThreadId) (t : Tables) (hash : Bytes) : Tables :=
  { t with
    messageIds := t.messageIds.upsert (MessageIdRecord.repoint hash thread)
      (MessageIdRecord.repoint_apart hash thread) ⟨hash, thread⟩ }

/-- The thread a hash names, with its size, where it is not among the named ones yet. -/
def nameOne (t : Tables) (named : List (Nat × ThreadId)) (hash : Bytes) : List (Nat × ThreadId) :=
  match threadOf t hash with
  | some thread =>
    if named.any fun known => known.2 = thread then named
    else named ++ [(size t thread, thread)]
  | none => named

/-- The threads the hashes name, each once with its size. -/
def named (t : Tables) (hashes : List Bytes) : List (Nat × ThreadId) :=
  hashes.foldl (nameOne t) []

/-- The most emails first, the smaller id on a tie. -/
def Larger (a b : Nat × ThreadId) : Prop := b.1 < a.1 ∨ (a.1 = b.1 ∧ a.2 ≤ b.2)

instance : DecidableRel Larger := fun _ _ => inferInstanceAs (Decidable (_ ∨ _))

/-- The thread of an email whose header names `hashes`, before its row is written. Threads the
hashes tell apart merge into the one that holds the most emails; with no thread named the email
starts the thread `generated`. Every hash points at the thread afterwards. -/
def join (w : Writing) (hashes : List Bytes) (generated : ThreadId) : Writing × ThreadId :=
  let sorted := (named w.tables hashes).insertionSort Larger
  let (held, thread) := sorted.head?.getD (0, generated)
  let losers := sorted.tail
  let w := losers.foldl (fun w loser => merge w loser.2 thread) w
  let kind : ChangeKind := if held = 0 ∧ losers = [] then .created else .updated
  (⟨hashes.foldl (point thread) w.tables, w.ledger.note (.thread, thread) kind⟩, thread)

/-- The thread a server names for a row about to be written: it reads as created while no row
holds it and as updated otherwise. -/
def claim (w : Writing) (thread : ThreadId) : Writing :=
  let kind : ChangeKind := if size w.tables thread = 0 then .created else .updated
  { w with ledger := w.ledger.note (.thread, thread) kind }

/-- An email left `thread`: the thread is destroyed with its hashes when it holds none anymore and
updated otherwise. -/
def left (w : Writing) (thread : ThreadId) : Writing :=
  if size w.tables thread > 0 then
    { w with ledger := w.ledger.note (.thread, thread) .updated }
  else
    { tables := { w.tables with
        messageIds := w.tables.messageIds.delete fun r => r.threadId = thread }
      ledger := w.ledger.note (.thread, thread) .destroyed }

/-! ## What the queries answer -/

theorem mem_emailsOf {t : Tables} {thread : ThreadId} {id : EmailId} :
    id ∈ emailsOf t thread ↔ ∃ r ∈ t.emails, r.threadId = thread ∧ r.id = id := by
  simp [emailsOf, Table.mem_def, and_assoc]

theorem threadOf_eq_some {t : Tables} {hash : Bytes} {thread : ThreadId} :
    threadOf t hash = some thread ↔ ⟨hash, thread⟩ ∈ t.messageIds := by
  unfold threadOf
  constructor
  · intro h
    obtain ⟨r, hf, rfl⟩ := Option.map_eq_some_iff.1 h
    obtain ⟨hr, rfl⟩ := Table.mem_of_find? hf
    exact hr
  · intro hr
    have hone : ∀ r ∈ t.messageIds, r.messageIdHash = hash → r = ⟨hash, thread⟩ :=
      fun r hm hx => t.messageIds.unique hm hr fun h => h hx
    rw [Table.find?_eq_some (p := fun r => r.messageIdHash = hash) hr rfl hone]
    rfl

theorem size_pos {t : Tables} {thread : ThreadId} :
    0 < size t thread ↔ ∃ r ∈ t.emails, r.threadId = thread := by
  simp [size, List.length_pos_iff_exists_mem, Table.mem_def]

theorem size_eq_zero {t : Tables} {thread : ThreadId} :
    size t thread = 0 ↔ ∀ r ∈ t.emails, r.threadId ≠ thread := by
  simp [size, Table.mem_def]

theorem mem_point {thread : ThreadId} {t : Tables} {hash : Bytes} {r : MessageIdRecord} :
    r ∈ (point thread t hash).messageIds ↔
      r = ⟨hash, thread⟩ ∨ (r.messageIdHash ≠ hash ∧ r ∈ t.messageIds) := by
  have hmoved : ∀ s : MessageIdRecord, ¬ s.Apart ⟨hash, thread⟩ →
      s.repoint hash thread = ⟨hash, thread⟩ := fun s hs => by
    have hh : s.messageIdHash = hash := not_not.1 hs
    simp [MessageIdRecord.repoint, hh]
  have hkept : ∀ s : MessageIdRecord, s.Apart ⟨hash, thread⟩ → s.repoint hash thread = s :=
    fun s hs => if_neg hs
  rw [point, Table.mem_upsert hkept fun s hs hc => by rw [hmoved s hs] at hc; exact hc rfl]
  constructor
  · rintro (⟨hr, hh⟩ | ⟨s, -, hs, rfl⟩ | ⟨rfl, -⟩)
    · exact .inr ⟨hh, hr⟩
    · exact .inl (hmoved s hs)
    · exact .inl rfl
  · rintro (rfl | ⟨hh, hr⟩)
    · by_cases hany : ∀ s ∈ t.messageIds, s.Apart ⟨hash, thread⟩
      · exact .inr (.inr ⟨rfl, hany⟩)
      · push Not at hany
        obtain ⟨s, hs, hc⟩ := hany
        exact .inr (.inl ⟨s, hs, hc, hmoved s hc⟩)
    · exact .inl ⟨hr, hh⟩

end Huliho
