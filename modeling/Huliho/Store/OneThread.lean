import Huliho.Store.Weaving

/-!
# No message id names two threads

The stores of a folder account, with the threads their logs ever told destroyed: **`threads_kept`**.
Two emails that name one message id are in one thread, every hash points at a thread that holds an
email, and no thread comes back.

A matched message keeps the row that waited for it, its thread with it, and is not joined again. Two
messages of one folder may wait under one identity though, where neither has an id of its own, and
come back the other way round: **`swapped`**. What `told` adds is that none does.
-/

namespace Huliho

/-! ## What is written -/

/-- What a blob names: the ids of the header it opens to. -/
def namesOf (sealer : Sealer) (opens : EmailId → Bytes → Option Personal) : Naming :=
  fun id sealed hash => ∃ personal, opens id sealed = some personal ∧
    hash ∈ namedHashes sealer personal

/-- The host opens what it sealed. -/
def Opens (sealer : Sealer) (opens : EmailId → Bytes → Option Personal) : Prop :=
  ∀ id personal sealed, sealer.blob id personal = .ok sealed → opens id sealed = some personal

namespace Write

/-- The write is one of a folder account under the account's sealer: no message carries Gmail items,
a draft is sealed as what it names, and a blob given a preview holds the header it held. -/
def OfFolders (sealer : Sealer) (opens : EmailId → Bytes → Option Personal) : Write → Prop
  | .batch other _ written => other = sealer ∧ ∀ facts ∈ written.emails, facts.gmail = none
  | .set _ asked => asked.gmail = false ∧ ∀ d ∈ asked.drafts,
      sealer.blob d.id d.facts.personal = .ok d.sealed ∧
        d.named = namedHashes sealer d.facts.personal
  | .previews preview _ => ∀ id text blob resealed,
      preview id text blob = some (.ok resealed) → opens id resealed = opens id blob
  | _ => True

/-- A message that comes back under the identity of a waiting row names nothing the row does not. -/
def Tells (sealer : Sealer) (opens : EmailId → Bytes → Option Personal) (t : Tables) : Write → Prop
  | .batch _ _ written => ∀ facts ∈ written.emails, ∀ r ∈ t.emails,
      r.folderId = written.folder → r.uid < 0 → r.identity = facts.identity sealer →
        ∀ hash ∈ namedHashes sealer facts.personal, namesOf sealer opens r.id r.sealed hash
  | _ => True

/-- The threads the generator may answer. -/
def Generates (thread : ThreadId) : Write → Prop
  | .batch _ mint _ => ∃ n, (mint n).threadId = thread
  | .set generate asked => ∃ d ∈ asked.drafts, generate d.id = thread
  | _ => False

variable {sealer : Sealer} {opens : EmailId → Bytes → Option Personal} {free : ThreadId → Prop}
  {moving : Option Moving} {before after : Tables} {write : Write}

theorem woven (hopens : Opens sealer opens) (hi : Inv before) (hw : write.Fresh before)
    (hf : write.OfFolders sealer opens) (ht : write.Tells sealer opens before)
    (hg : ∀ thread, write.Generates thread → free thread)
    (h : Woven (namesOf sealer opens) free before)
    (ho : write.operation moving before = .ok after) : Woven (namesOf sealer opens) free after := by
  have hnames : ∀ id personal sealed, sealer.blob id personal = .ok sealed →
      ∀ hash, namesOf sealer opens id sealed hash ↔ hash ∈ namedHashes sealer personal := by
    intro id personal sealed hblob hash
    rw [namesOf, hopens id personal sealed hblob]
    simp
  cases write with
  | batch other mint batch =>
    obtain ⟨rfl, hgmail⟩ := hf
    obtain ⟨_, ho⟩ := map_fst_eq_ok ho
    exact h.writeBatch hi hnames hw (fun n => hg _ ⟨n, rfl⟩) hgmail ht ho
  | set generate asked =>
    obtain ⟨_, ho⟩ := map_fst_eq_ok ho
    refine h.writeSet hi hw (fun d hd => hg _ ⟨d, hd, rfl⟩) (fun d hd hash hn => ?_) ho
    obtain ⟨hblob, hnamed⟩ := hf.2 d hd
    rw [hnamed]
    exact (hnames _ _ _ hblob hash).1 hn
  | mailboxes order mint found | pass order mint read =>
    obtain ⟨_, ho⟩ := map_fst_eq_ok ho
    exact h.apply hi ho
  | mailboxSet changes =>
    obtain ⟨_, ho⟩ := map_fst_eq_ok ho
    exact h.writeMailboxes hi ho
  | flags standing changes =>
    obtain ⟨_, ho⟩ := map_fst_eq_ok ho
    exact h.applyFlags ho
  | remove standing uids =>
    obtain ⟨_, ho⟩ := map_fst_eq_ok ho
    exact h.removeUids ho
  | park standing uids =>
    obtain ⟨_, ho⟩ := map_fst_eq_ok ho
    exact h.parkUids ho
  | sweep =>
    obtain ⟨_, ho⟩ := map_fst_eq_ok ho
    exact h.sweepParked hi ho
  | advance standing synced =>
    rw [← Except.ok.inj ho]
    exact h.advance standing synced
  | previews preview previews =>
    obtain ⟨_, ho⟩ := map_fst_eq_ok ho
    refine h.savePreviews (fun id text blob resealed hp hash hn => ?_) ho
    rwa [namesOf, hf id text blob resealed hp] at hn

end Write

/-! ## Threads told destroyed -/

/-- The log tells the thread destroyed. -/
def TellsGone (t : Tables) (thread : ThreadId) : Prop :=
  ∃ row ∈ t.changes, row.object = .thread ∧ row.id = thread ∧ row.kind = .destroyed

/-- What a write tells destroyed holds no email, or was told before. -/
theorem Outcome.tellsGone {before after : Tables} (h : Outcome before after) {thread : ThreadId}
    (hgone : TellsGone after thread) : ¬ Holding after thread ∨ TellsGone before thread := by
  obtain ⟨row, hrow, hobject, hid, hkind⟩ := hgone
  rcases h.told with hq | htold
  · rw [hq.changes] at hrow
    exact .inr ⟨row, hrow, hobject, hid, hkind⟩
  · by_cases hseq : row.sequence ≤ before.sequence
    · obtain ⟨low, -, hkept⟩ := htold.kept
      exact .inr ⟨row, ((hkept row hseq).1 hrow).1, hobject, hid, hkind⟩
    · left
      have hbelow := h.inv.below row hrow
      have hnew : row.sequence = after.sequence := by
        have := htold.sequence
        omega
      have hentry : entryAt after after.sequence (Item.thread thread).slot = some .destroyed := by
        rw [entryAt_eq_some, ← hnew]
        obtain ⟨s, object, id, kind⟩ := row
        obtain rfl : object = .thread := hobject
        obtain rfl : id = thread := hid
        obtain rfl : kind = .destroyed := hkind
        exact hrow
      have hagrees := htold.tracks (.thread thread)
      rw [hentry] at hagrees
      rw [← view_thread_isSome, hagrees.2]
      simp

/-! ## Every run -/

/-- The stores of a folder account, with the threads a log of theirs ever told destroyed; `told` is
whether the identity of a waiting row tells its message. -/
inductive FolderRun (sealer : Sealer) (opens : EmailId → Bytes → Option Personal) (told : Prop) :
    (ThreadId → Prop) → Store → Prop
  | fresh : FolderRun sealer opens told (fun _ => False) Store.fresh
  | run {gone : ThreadId → Prop} {store : Store} (h : FolderRun sealer opens told gone store)
      (write : Write) (hw : write.Fresh store.tables) (hf : write.OfFolders sealer opens)
      (ht : told → write.Tells sealer opens store.tables)
      (hg : ∀ thread, write.Generates thread → ¬ gone thread) :
      FolderRun sealer opens told
        (fun thread => gone thread ∨ TellsGone (store.run write).1.tables thread)
        (store.run write).1
  /-- The host forgot the account. -/
  | forgotten {gone : ThreadId → Prop} {store : Store}
      (h : FolderRun sealer opens told gone store) :
      FolderRun sealer opens told gone { store with moving := none, forgotten := true }
  /-- The process started over. -/
  | reopened {gone : ThreadId → Prop} {store : Store}
      (h : FolderRun sealer opens told gone store) :
      FolderRun sealer opens told gone { store with moving := none, forgotten := false }

variable {sealer : Sealer} {opens : EmailId → Bytes → Option Personal} {told : Prop}
  {gone : ThreadId → Prop} {store : Store}

theorem FolderRun.reachable (h : FolderRun sealer opens told gone store) : Reachable store := by
  induction h with
  | fresh => exact .fresh
  | run _ write hw _ _ _ ih => exact .run ih write hw
  | forgotten _ ih => exact .forgotten ih
  | reopened _ ih => exact .reopened ih

theorem FolderRun.woven (hopens : Opens sealer opens) (h : FolderRun sealer opens True gone store) :
    Woven (namesOf sealer opens) (fun thread => ¬ gone thread) store.tables ∧
      ∀ thread, TellsGone store.tables thread → gone thread := by
  induction h with
  | fresh =>
    refine ⟨⟨fun _ hr => absurd hr Table.not_mem_empty,
      fun _ hr => absurd hr Table.not_mem_empty⟩, ?_⟩
    rintro thread ⟨row, hrow, -⟩
    exact absurd hrow Table.not_mem_empty
  | @run gone store h write hw hf ht hg ih =>
    obtain ⟨hwoven, hlog⟩ := ih
    have hafter : Woven (namesOf sealer opens) (fun thread => ¬ gone thread)
        (store.run write).1.tables := by
      rcases store.run_cases write with ⟨tables, ho, hr⟩ | ⟨error, hr⟩
      · rw [hr]
        exact Write.woven hopens h.reachable.inv hw hf (ht trivial) hg hwoven ho
      · rw [hr]
        exact hwoven
    refine ⟨⟨hafter.points, fun r hr hc => ?_⟩, fun thread hgone => .inr hgone⟩
    rcases hc with hc | hc
    · exact hafter.threads r hr hc
    · rcases (h.reachable.outcome hw).tellsGone hc with hnone | hbefore
      · exact hnone ⟨r, hr, rfl⟩
      · exact hafter.threads r hr (hlog _ hbefore)
  | forgotten _ ih => exact ih
  | reopened _ ih => exact ih

/-- Two messages without an id of their own and one that answers the second. -/
def threeHeaders : List Personal :=
  [⟨none, none, some ["a"]⟩, ⟨none, none, some ["b"]⟩, ⟨some ["c"], none, some ["b"]⟩]

/-- A host that seals these three headers and no other. -/
def threeSealer : Sealer where
  blob _ personal :=
    match threeHeaders.idxOf? personal with
    | some n => .ok [UInt8.ofNat n]
    | none => .error .seal
  keyedHash := plainSealer.keyedHash

def threeOpens : EmailId → Bytes → Option Personal :=
  fun _ blob => blob.head?.bind fun n => threeHeaders[n.toNat]?

theorem threeOpens_opens : Opens threeSealer threeOpens := by
  intro id personal sealed h
  simp only [threeSealer] at h
  split at h
  · rename_i n hn
    obtain ⟨hlt, hat, -⟩ := List.idxOf?_eq_some_iff.1 hn
    have hbyte : (UInt8.ofNat n).toNat = n := Nat.mod_eq_of_lt (lt_trans hlt (by decide))
    rw [← Except.ok.inj h]
    simp only [threeOpens, List.head?_cons, Option.bind_some, hbyte]
    exact List.getElem?_eq_some_iff.2 ⟨hlt, hat⟩
  · cases h

/-- The three messages of the folder, as a sync reads them. -/
def threeFacts : List EmailFacts :=
  (threeHeaders.zipIdx 1).map fun (personal, uid) => { plainFacts uid with personal }

def threeMessages : Store :=
  (oneFolder.run (.batch threeSealer (numberedMint 'e' 'd')
    ⟨"mINBOX", 1, threeFacts, .up 4 3⟩)).1

/-- The server renumbered the folder. -/
def threeWaiting : Store :=
  (threeMessages.run (.mailboxes id (lettered 'n')
    [{ folderFacts "INBOX" (some "inbox") none with uidValidity := some 2 }])).1

/-- The same three messages under their new UIDs. -/
def threeBack : Store :=
  (threeWaiting.run (.batch threeSealer (numberedMint 'f' 'g')
    ⟨"mINBOX", 2, threeFacts, .down (some 1) true ⟨none, none, none⟩⟩)).1

theorem not_tellsGone {t : Tables} (h : ∀ row ∈ t.changes.rows, row.kind ≠ .destroyed)
    (thread : ThreadId) : ¬ TellsGone t thread :=
  fun ⟨row, hrow, _, _, hkind⟩ => h row hrow hkind

theorem threeMessages_run : ∀ told, FolderRun threeSealer threeOpens told
    (fun thread => (False ∨ TellsGone oneFolder.tables thread) ∨
      TellsGone threeMessages.tables thread) threeMessages := by
  intro told
  have hfolder : FolderRun threeSealer threeOpens told
      (fun thread => False ∨ TellsGone oneFolder.tables thread) oneFolder :=
    .run .fresh (.mailboxes id (lettered 'm') [folderFacts "INBOX" (some "inbox") none])
      (listing_numbered (by decide) (by decide +kernel)) trivial (fun _ => trivial)
      fun _ h => h.elim
  refine .run hfolder _ ?_ ⟨rfl, by decide +kernel⟩ (fun _ => ?_) fun thread _ => ?_
  · exact minting_numbered (by decide +kernel) (by decide +kernel) (by decide +kernel)
  · exact fun _ _ r hr => absurd hr (List.not_mem_nil (a := r))
  · exact fun hc => hc.elim id (not_tellsGone (by decide +kernel) thread)

end Huliho
