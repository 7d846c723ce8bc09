import Huliho.Store.PassWrites

/-!
# Runs of the store

`mod.rs`: a write runs as one transaction, refused for a forgotten account and rolled back when it
fails, and the store of an account goes from write to write. `Write` names every write of an
account's rows with its arguments; what the code draws from outside — generated ids, the order of a
`HashMap` — is among them, and `Write.Fresh` says of it what the generators promise.

`Reachable.inv` is the invariant of every reachable store and `Reachable.outcome` what any write
does to it: by the one lemma per write of the modules before, there is nothing left to prove here
but the induction.
-/

namespace Huliho

/-- The store of one account: its rows, the commands for moving mail the last pass of this process
read, and whether the host forgot the account. -/
structure Store where
  tables : Tables
  moving : Option Moving
  forgotten : Bool

/-- A store before its account's first write. -/
def Store.fresh : Store := ⟨Tables.empty, none, false⟩

/-- A write of the store. -/
inductive Write
  | batch (sealer : Sealer) (mint : Nat → Minted) (batch : Batch)
  | set (generate : EmailId → ThreadId) (set : SetWrite)
  | mailboxes (order : List MailboxId → List MailboxId) (mint : String → MailboxId)
      (found : List MailboxFacts)
  | pass (order : List MailboxId → List MailboxId) (mint : String → MailboxId) (pass : Pass)
  | mailboxSet (changes : List MailboxChange)
  | flags (standing : Standing) (changes : List FlagChange)
  | remove (standing : Standing) (uids : List Nat)
  | park (standing : Standing) (uids : List Nat)
  | sweep
  | advance (standing : Standing) (synced : Synced)
  | previews (preview : EmailId → String → Bytes → Option (Except StoreError Bytes))
      (previews : List (EmailId × String))

namespace Write

/-- The rows a write leaves. `apply_mailboxes` clears every letter; a pass flips the rights of every
mailbox it found where the commands it read are new to this process. -/
def operation (moving : Option Moving) (t : Tables) : Write → Except StoreError Tables
  | .batch sealer mint written => Prod.fst <$> writeBatch sealer mint t written
  | .set generate asked => Prod.fst <$> writeSet generate t asked
  | .mailboxes order mint found => Prod.fst <$> apply order mint t found (some fun _ => none) false
  | .pass order mint read =>
    Prod.fst <$> apply order mint t read.found read.rights (moving ≠ some read.moving)
  | .mailboxSet changes => Prod.fst <$> writeMailboxes t changes
  | .flags standing changes => Prod.fst <$> applyFlags t standing changes
  | .remove standing uids => Prod.fst <$> removeUids t standing uids
  | .park standing uids => Prod.fst <$> parkUids t standing uids
  | .sweep => Prod.fst <$> sweepParked t
  | .advance standing synced => .ok (Huliho.advance t standing synced)
  | .previews preview saved => Prod.fst <$> savePreviews preview t saved

/-- The commands a write records once it went through. -/
def records : Write → Option Moving
  | .pass _ _ read => some read.moving
  | _ => none

/-- A listing names each mailbox once, a `HashMap` answers every value of its in some order and a
generated mailbox id is new. -/
structure Listing (order : List MailboxId → List MailboxId) (mint : String → MailboxId)
    (found : List MailboxFacts) (t : Tables) : Prop where
  once : (found.map MailboxFacts.imapName).Nodup
  order : ∀ ids, (order ids).Perm ids
  ids : ∀ name, ∀ r ∈ t.mailboxes, r.row.id ≠ mint name
  apart : ∀ name name', mint name = mint name' → name = name'

/-- What the code relies on of what it draws from outside. -/
def Fresh (t : Tables) : Write → Prop
  | .batch _ mint written => Minting mint written.emails t
  | .set generate asked => Generating generate asked.drafts t
  | .mailboxes order mint found => Listing order mint found t
  | .pass order mint read => Listing order mint read.found t
  | _ => True

end Write

/-- One write as one transaction. -/
def Store.run (store : Store) (write : Write) : Store × Except StoreError Unit :=
  if store.forgotten then (store, .error .forgotten)
  else
    match write.operation store.moving store.tables with
    | .ok tables => ({ store with tables, moving := write.records.or store.moving }, .ok ())
    | .error error => (store, .error error)

/-- The stores an account comes to. -/
inductive Reachable : Store → Prop
  | fresh : Reachable Store.fresh
  | run {store : Store} (h : Reachable store) (write : Write) (hw : write.Fresh store.tables) :
      Reachable (store.run write).1
  /-- The host forgot the account. -/
  | forgotten {store : Store} (h : Reachable store) :
      Reachable { store with moving := none, forgotten := true }
  /-- The process started over: only the rows are kept. -/
  | reopened {store : Store} (h : Reachable store) :
      Reachable { store with moving := none, forgotten := false }

/-! ## One write -/

theorem map_fst_eq_ok {α β ε : Type} {x : Except ε (α × β)} {a : α}
    (h : Prod.fst <$> x = .ok a) : ∃ b, x = .ok (a, b) := by
  cases x with
  | error e => cases h
  | ok p => exact ⟨p.2, by rw [← Except.ok.inj h]⟩

/-- **Whatever write it was**, it came out as one of the two. -/
theorem Write.outcome {moving : Option Moving} {before after : Tables} {write : Write}
    (hi : Inv before) (hw : write.Fresh before)
    (ho : write.operation moving before = .ok after) : Outcome before after := by
  cases write with
  | batch sealer mint batch =>
    obtain ⟨_, h⟩ := map_fst_eq_ok ho
    exact writeBatch_outcome hi hw h
  | set generate set =>
    obtain ⟨_, h⟩ := map_fst_eq_ok ho
    exact writeSet_outcome hi hw h
  | mailboxes order mint found =>
    obtain ⟨_, h⟩ := map_fst_eq_ok ho
    exact apply_outcome hi h
  | pass order mint pass =>
    obtain ⟨_, h⟩ := map_fst_eq_ok ho
    exact apply_outcome hi h
  | mailboxSet changes =>
    obtain ⟨_, h⟩ := map_fst_eq_ok ho
    exact writeMailboxes_outcome hi h
  | flags standing changes =>
    obtain ⟨_, h⟩ := map_fst_eq_ok ho
    exact applyFlags_outcome hi h
  | remove standing uids =>
    obtain ⟨_, h⟩ := map_fst_eq_ok ho
    exact removeUids_outcome hi h
  | park standing uids =>
    obtain ⟨_, h⟩ := map_fst_eq_ok ho
    exact .quiet hi (parkUids_unseen h)
  | sweep =>
    obtain ⟨_, h⟩ := map_fst_eq_ok ho
    exact sweepParked_outcome hi h
  | advance standing synced =>
    rw [← Except.ok.inj ho]
    exact .quiet hi (advance_unseen before standing synced)
  | previews preview previews =>
    obtain ⟨_, h⟩ := map_fst_eq_ok ho
    exact savePreviews_outcome hi h

/-- A write either went through on the rows or left the store as it was. -/
theorem Store.run_cases (store : Store) (write : Write) :
    (∃ tables, write.operation store.moving store.tables = .ok tables ∧ store.run write =
      ({ store with tables, moving := write.records.or store.moving }, .ok ())) ∨
    ∃ error, store.run write = (store, .error error) := by
  unfold Store.run
  split
  · exact .inr ⟨_, rfl⟩
  · cases ho : write.operation store.moving store.tables with
    | ok tables => exact .inl ⟨tables, rfl, rfl⟩
    | error error => exact .inr ⟨error, rfl⟩

/-! ## Every run -/

/-- **The invariant of every reachable store.** -/
theorem Reachable.inv {store : Store} (h : Reachable store) : Inv store.tables := by
  induction h with
  | fresh => exact Inv.empty
  | run h write hw ih =>
    rename_i store
    rcases store.run_cases write with ⟨tables, ho, hr⟩ | ⟨error, hr⟩
    · rw [hr]
      exact (write.outcome ih hw ho).inv
    · rw [hr]
      exact ih
  | forgotten _ ih => exact ih
  | reopened _ ih => exact ih

/-- What any write does to a reachable store. -/
theorem Reachable.outcome {store : Store} (h : Reachable store) {write : Write}
    (hw : write.Fresh store.tables) :
    Outcome store.tables (store.run write).1.tables := by
  rcases store.run_cases write with ⟨tables, ho, hr⟩ | ⟨error, hr⟩
  · rw [hr]
    exact write.outcome h.inv hw ho
  · rw [hr]
    exact .quiet h.inv .refl

/-! ## The log tells every change -/

/-- Writes that take rows away or move them where no client looks, and nothing else. -/
def Write.TakesOnly : Write → Prop
  | .remove .. | .park .. | .sweep | .advance .. => True
  | _ => False

theorem Write.counter {moving : Option Moving} {before after : Tables} {write : Write}
    (ht : write.TakesOnly) (ho : write.operation moving before = .ok after)
    (hv : ∀ x, view after x = view before x) : after.sequence = before.sequence := by
  cases write with
  | remove standing uids =>
    obtain ⟨_, h⟩ := map_fst_eq_ok ho
    exact removeUids_counter h hv
  | park standing uids =>
    obtain ⟨_, h⟩ := map_fst_eq_ok ho
    exact (parkUids_unseen h).sequence
  | sweep =>
    obtain ⟨_, h⟩ := map_fst_eq_ok ho
    exact sweepParked_counter h hv
  | advance standing synced =>
    rw [← Except.ok.inj ho]
    exact (advance_unseen before standing synced).sequence
  | _ => exact ht.elim

/-- What the log says of one object under a state: exactly one row, of the kind its existence at
both ends calls for. -/
def ToldOnce (before after : Tables) (x : Item) : Prop :=
  ∃ k, some k = ChangeKind.ofExistence (view before x).isSome (view after x).isSome ∧
    ∀ row, (row ∈ after.changes ∧ row.sequence = after.sequence ∧ row.slot = x.slot) ↔
      row = ⟨after.sequence, x.slot.1, x.slot.2, k⟩

theorem Told.once {before after : Tables} (h : Told before after) {x : Item}
    (hx : view after x ≠ view before x) : ToldOnce before after x := by
  have hn : Tracks (fun _ => False) (fun y : Item => entryAt after after.sequence y.slot)
      (view before) (view after) := fun y => .inl (h.tracks y)
  obtain ⟨k, hk, hof⟩ := hn.entry_of_ne hx
  refine ⟨k, hof, fun row => ⟨?_, ?_⟩⟩
  · rintro ⟨hrow, hs, hx'⟩
    have hin := entryAt_eq_some.1 hk
    refine after.changes.unique hrow hin fun hapart => hapart ⟨hs, ?_, ?_⟩
    · exact congrArg Prod.fst hx'
    · exact congrArg Prod.snd hx'
  · rintro rfl
    exact ⟨entryAt_eq_some.1 hk, rfl, rfl⟩

/-- An id behind a letter. -/
def lettered (letter : Char) (name : String) : String := String.ofList (letter :: name.toList)

theorem lettered_inj {letter : Char} {n m : String} (h : lettered letter n = lettered letter m) :
    n = m := by
  have := congrArg String.toList h
  simpa [lettered, String.toList_inj] using this

theorem lettered_ne {c d : Char} (h : c ≠ d) (n m : String) : lettered c n ≠ lettered d m := by
  intro hc
  have := congrArg (fun s => s.toList.head?) hc
  simp only [lettered, String.toList_ofList, List.head?_cons, Option.some.injEq] at this
  exact h this

/-- The n-th id behind a letter. -/
def numbered (letter : Char) (n : Nat) : String :=
  lettered letter (String.ofList (List.replicate n letter))

theorem numbered_inj {letter : Char} {n m : Nat} (h : numbered letter n = numbered letter m) :
    n = m := by
  have := congrArg (fun s => s.toList.length) (lettered_inj h)
  simpa using this

/-- The ids of a batch: one letter for its emails, one for its threads. -/
def numberedMint (email thread : Char) (n : Nat) : Minted :=
  ⟨numbered email n, numbered thread n⟩

/-- A host that seals nothing away and hashes a text to itself. -/
def plainSealer : Sealer :=
  ⟨fun _ _ => .ok [], fun id => id.toList.map fun c => UInt8.ofNat c.toNat⟩

/-- A folder as a listing finds it. -/
def folderFacts (name : String) (role : Option String) (highestModseq : Option Nat) :
    MailboxFacts :=
  ⟨name, name, none, role, 1, true, true, true, none, some 1, some 1, highestModseq, 0, 0⟩

/-- A message without a header. -/
def plainFacts (uid : Nat) : EmailFacts := ⟨uid, ∅, 1, 0, none, false, none, ⟨none, none, none⟩⟩

/-- An account with one folder. -/
def oneFolder : Store :=
  (Store.fresh.run (.mailboxes id (lettered 'm') [folderFacts "INBOX" (some "inbox") none])).1

/-- A message arrives in it, the folder not done. -/
def firstBatch : Write :=
  .batch plainSealer (numberedMint 'e' 'd')
    ⟨"mINBOX", 1, [plainFacts 1], .down (some 1) false ⟨none, none, none⟩⟩

def oneMessage : Store := (oneFolder.run firstBatch).1

theorem listing_numbered {found : List MailboxFacts} {t : Tables} {letter : Char}
    (hn : (found.map MailboxFacts.imapName).Nodup)
    (hids : ∀ r ∈ t.mailboxes.rows, r.row.id.toList.head? ≠ some letter) :
    Write.Listing id (lettered letter) found t :=
  ⟨hn, fun _ => .refl _, fun name r hr hc => hids r hr (by rw [hc]; simp [lettered]),
    fun _ _ => lettered_inj⟩

theorem minting_numbered {emails : List EmailFacts} {t : Tables} {email thread : Char}
    (hids : ∀ r ∈ t.emails.rows, r.id.toList.head? ≠ some email)
    (hthreads : ∀ r ∈ t.emails.rows, r.threadId.toList.head? ≠ some thread)
    (hgmail : ∀ facts ∈ emails, ∀ gmail ∈ facts.gmail, gmail.thread.toList.head? ≠ some thread) :
    Minting (numberedMint email thread) emails t := by
  refine ⟨fun n r hr hc => hids r hr (by rw [hc]; simp [numberedMint, numbered, lettered]),
    fun n ⟨r, hr, hc⟩ => hthreads r hr (by rw [hc]; simp [numberedMint, numbered, lettered]),
    fun n m hne => ⟨fun hc => hne (numbered_inj hc), fun hc => hne (numbered_inj hc)⟩,
    fun n facts hf gmail hg hc => hgmail facts hf gmail hg ?_⟩
  rw [hc]
  simp [numberedMint, numbered, lettered]

theorem oneFolder_reachable : Reachable oneFolder :=
  .run .fresh (.mailboxes id (lettered 'm') [folderFacts "INBOX" (some "inbox") none])
    (listing_numbered (by decide) (by decide +kernel))

theorem firstBatch_fresh : firstBatch.Fresh oneFolder.tables :=
  minting_numbered (by decide +kernel) (by decide +kernel) (by decide +kernel)

theorem oneMessage_reachable : Reachable oneMessage :=
  .run oneFolder_reachable firstBatch firstBatch_fresh

/-- Writes that leave every email and every thread of `oneMessage` as it was: a listing that read a
new HIGHESTMODSEQ, a batch that only finishes the first sync, a keyword given and taken again, a
subscription that stood already and a message whose flags were read twice. -/
def unseenWrites : List Write :=
  [.mailboxes id (lettered 'n') [folderFacts "INBOX" (some "inbox") (some 7)],
    .batch plainSealer (numberedMint 'f' 'g') ⟨"mINBOX", 1, [], .down (some 1) true ⟨none, none, none⟩⟩,
    .set (lettered 'h') ⟨false, [], [⟨"e", "mINBOX", 1, ["a"], []⟩, ⟨"e", "mINBOX", 1, [], ["a"]⟩],
      [], [], [], []⟩,
    .mailboxSet [.subscribed "mINBOX" true],
    .flags ⟨"mINBOX", 1⟩ [⟨1, {"a"}, none⟩, ⟨1, ∅, none⟩]]

theorem view_eq_of_rows {t t' : Tables} (he : t'.emails.rows = t.emails.rows)
    (hm : t'.memberships.rows = t.memberships.rows) (x : Item) : view t' x = view t x :=
  view_congr (fun _ _ _ => by simp only [EmailAt, Table.mem_def, he])
    (fun _ _ => by simp only [MemberOf, Table.mem_def, hm]) x

end Huliho
