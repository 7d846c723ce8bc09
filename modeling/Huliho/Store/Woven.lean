import Huliho.Store.Threading

/-!
# Every thread holds what its emails name

A message id a stored email names points at the email's thread, so two emails that name one are in
one thread: a hash points at one thread. `Woven` says it, with the threads the rows may be in, and
each operation of the store keeps it. The three that do more than leave the threads alone are a
join, which moves the emails and the hashes of a thread together (`Woven.join`), a row that leaves,
which takes the hashes of its thread along only with the last email of it (`Woven.left`,
`Woven.leave`), and a message under a waiting row, which must name nothing the row did not
(`Woven.writeFacts`).
-/

namespace Huliho

/-- What the blob of a row names. -/
abbrev Naming := EmailId → Bytes → Bytes → Prop

/-- Every hash an email names points at its thread, and its thread is one that may be held. -/
structure Woven (names : Naming) (free : ThreadId → Prop) (t : Tables) : Prop where
  points : ∀ r ∈ t.emails, ∀ hash, names r.id r.sealed hash → PointsAt t hash r.threadId
  threads : ∀ r ∈ t.emails, free r.threadId

section

variable {names : Naming} {free : ThreadId → Prop} {before t t' : Tables} {w w' : Writing}
  {folder : MailboxId}

/-! ## Rows and hashes -/

theorem Woven.of_tables (h : Woven names free t) (he : t'.emails = t.emails)
    (hm : t'.messageIds = t.messageIds) : Woven names free t' := by
  refine ⟨fun r hr hash hn => ?_, fun r hr => h.threads r (he ▸ hr)⟩
  rw [PointsAt, hm]
  exact h.points r (he ▸ hr) hash hn

/-- Columns that leave the thread be and name nothing new. -/
theorem Woven.revised (h : Woven names free t) (f : EmailRecord → EmailRecord)
    (hrows : ∀ r, r ∈ t'.emails ↔ ∃ s ∈ t.emails, f s = r)
    (hkeeps : ∀ s ∈ t.emails, (f s).threadId = s.threadId ∧
      ∀ hash, names (f s).id (f s).sealed hash → names s.id s.sealed hash)
    (hm : t'.messageIds = t.messageIds) : Woven names free t' := by
  refine ⟨fun r hr hash hn => ?_, fun r hr => ?_⟩ <;> obtain ⟨s, hs, rfl⟩ := (hrows r).1 hr
  · rw [PointsAt, hm, (hkeeps s hs).1]
    exact h.points s hs hash ((hkeeps s hs).2 hash hn)
  · rw [(hkeeps s hs).1]
    exact h.threads s hs

/-- Columns beside the id, the thread and the blob. -/
theorem Woven.restated (h : Woven names free t) (f : EmailRecord → EmailRecord)
    (hrows : ∀ r, r ∈ t'.emails ↔ ∃ s ∈ t.emails, f s = r)
    (hkeeps : ∀ s, (f s).id = s.id ∧ (f s).threadId = s.threadId ∧ (f s).sealed = s.sealed)
    (hm : t'.messageIds = t.messageIds) : Woven names free t' := by
  refine h.revised f hrows (fun s _ => ⟨(hkeeps s).2.1, fun hash hn => ?_⟩) hm
  rwa [(hkeeps s).1, (hkeeps s).2.2] at hn

/-- Rows that leave, and hashes that stay with the threads that do. -/
theorem Woven.departed (h : Woven names free t) (hrows : ∀ r ∈ t'.emails, r ∈ t.emails)
    (hm : ∀ r ∈ t'.emails, ∀ hash, PointsAt t hash r.threadId → PointsAt t' hash r.threadId) :
    Woven names free t' :=
  ⟨fun r hr hash hn => hm r hr hash (h.points r (hrows r hr) hash hn),
    fun r hr => h.threads r (hrows r hr)⟩

/-- **Two emails that name one hash are in one thread.** -/
theorem Woven.same_thread (h : Woven names free t) {r s : EmailRecord} (hr : r ∈ t.emails)
    (hs : s ∈ t.emails) {hash : Bytes} (hnr : names r.id r.sealed hash)
    (hns : names s.id s.sealed hash) : r.threadId = s.threadId := by
  have hone := t.messageIds.unique (h.points r hr hash hnr) (h.points s hs hash hns)
    fun hapart => hapart rfl
  exact congrArg MessageIdRecord.threadId hone

/-! ## Threads -/

/-- An email left a thread: only an empty one loses its hashes. -/
theorem Woven.left (h : Woven names free w.tables) (thread : ThreadId) :
    Woven names free (left w thread).tables := by
  unfold Huliho.left
  split
  · exact h
  · rename_i hempty
    refine h.departed (fun r hr => hr) fun r hr hash hp => Table.mem_delete.2 ⟨hp, fun hc => ?_⟩
    exact hempty (size_pos.2 ⟨r, hr, hc⟩)

@[simp] theorem EmailRecord.rethreads_sealed (losers : List ThreadId) (thread : ThreadId)
    (r : EmailRecord) : (r.rethreads losers thread).sealed = r.sealed := by
  unfold EmailRecord.rethreads; split <;> rfl

/-- **A join** moves the emails and the hashes of the threads that lose together, and every hash the
header names points at the one that stays. -/
theorem Woven.join (h : Woven names free w.tables) (hh : HashLive w.tables) (hashes : List Bytes)
    {generated : ThreadId} (hg : free generated) :
    Woven names free (join w hashes generated).1.tables ∧ free (join w hashes generated).2 ∧
      ∀ hash ∈ hashes, PointsAt (join w hashes generated).1.tables hash
        (join w hashes generated).2 := by
  obtain ⟨losers, hj⟩ := join_all w hashes generated
  revert hj
  generalize Huliho.join w hashes generated = joined
  obtain ⟨w', thread⟩ := joined
  intro hj
  have hfree : free thread := by
    rcases hj.survivor with ⟨hash, -, hp⟩ | rfl
    · obtain ⟨r, hr, hth⟩ := hh _ hp
      have hheld := h.threads r hr
      rw [hth] at hheld
      exact hheld
    · exact hg
  refine ⟨⟨fun s hs hash hn => ?_, fun s hs => ?_⟩, hfree, fun hash hin =>
    (hj.messageIds _).2 (.inl ⟨hin, rfl⟩)⟩ <;> obtain ⟨r, hr, rfl⟩ := (hj.emails s).1 hs
  · have hpoints : PointsAt w.tables hash r.threadId := by
      refine h.points r hr hash ?_
      rwa [EmailRecord.rethreads_id, EmailRecord.rethreads_sealed] at hn
    rw [EmailRecord.rethreads_threadId]
    by_cases hin : hash ∈ hashes
    · have hthread : (if r.threadId ∈ losers then thread else r.threadId) = thread := by
        split
        · rfl
        · exact (hj.merged _ ⟨hash, hin, hpoints⟩).resolve_right ‹_›
      rw [hthread]
      exact (hj.messageIds _).2 (.inl ⟨hin, rfl⟩)
    · refine (hj.messageIds _).2 (.inr ⟨hin, _, hpoints, ?_⟩)
      unfold MessageIdRecord.rethreads
      split <;> rfl
  · rw [EmailRecord.rethreads_threadId]
    split
    · exact hfree
    · exact h.threads r hr

/-- A row that goes into the thread its hashes point at. -/
theorem Woven.insert {facts : EmailFacts} {id : EmailId} {hash : Option Bytes} {sealed : Bytes}
    {thread : ThreadId} (h : Woven names free t) (hfree : free thread)
    (hn : ∀ hash, names id sealed hash → PointsAt t hash thread)
    (hi : insert t facts id folder hash sealed thread = .ok t') : Woven names free t' := by
  obtain ⟨hrows, -, -, hframe⟩ := insert_spec hi
  refine ⟨fun r hr hash hnr => ?_, fun r hr => ?_⟩
  · rw [PointsAt, hframe]
    rcases (hrows r).1 hr with hr | rfl
    · exact h.points r hr hash hnr
    · exact hn hash hnr
  · rcases (hrows r).1 hr with hr | rfl
    · exact h.threads r hr
    · exact hfree

/-! ## Rows that leave a folder -/

theorem leave_sequence (t : Tables) (folder : MailboxId) (leaving : Leaving) :
    (leave t folder t.sequence leaving).sequence = t.sequence := by
  rw [(leave_spec t folder t.sequence leaving).frame]

/-- **Rows leave a folder**: a thread that still holds an email is not logged as destroyed, so its
hashes stay. -/
theorem Woven.leave (h : Woven names free t) {leaving : Leaving}
    (hl : Logged before (leave t folder t.sequence leaving)) :
    Woven names free (leave t folder t.sequence leaving) := by
  have hspec := leave_spec t folder t.sequence leaving
  refine h.departed (fun r hr => ((hspec.emails r).1 hr).1) fun r hr hash hp =>
    (hspec.messageIds _).2 ⟨hp, ?_⟩
  have hview : (view (Huliho.leave t folder t.sequence leaving) (.thread r.threadId)).isSome :=
    view_thread_isSome.2 ⟨r, hr, rfl⟩
  have hne := hl.entry_ne_destroyed hview
  rwa [leave_sequence] at hne

theorem Woven.vanish (h : Woven names free t)
    (hl : Logged before (Huliho.leave t folder t.sequence .all)) :
    Woven names free (vanish t folder t.sequence) := by
  have hframe : LogsUnder t.sequence (Huliho.leave t folder t.sequence .all)
      (logEach (Huliho.leave t folder t.sequence .all) t.sequence (fun _ => .updated)
        (fun _ kind => kind) (membersOf (Huliho.leave t folder t.sequence .all) folder)) :=
    logsUnder_logEach
  refine (h.leave hl).of_tables ?_ ?_ <;> simp only [Huliho.vanish, forgetProgress] <;>
    rw [hframe.frame]

theorem Woven.renumber (h : Woven names free t)
    (hl : Logged before (Huliho.leave t folder t.sequence (renumberLeaving t folder)))
    (hr : renumber t folder t.sequence = .ok t') : Woven names free t' := by
  simp only [Huliho.renumber, Except.bind_eq_ok, constrained_eq_ok, pure, Except.pure,
    Except.ok.injEq] at hr
  obtain ⟨emails, hu, rfl⟩ := hr
  refine (h.leave hl).restated (EmailRecord.wait folder) (fun _ => Table.mem_update? hu)
    (fun s => ?_) rfl
  unfold EmailRecord.wait
  split <;> exact ⟨rfl, rfl, rfl⟩

/-! ## A batch -/

/-- What a waiting row may be matched with, beside what its blob names. -/
def Naming.waiting (names : Naming) (sealer : Sealer) (waiting : List (Identity × EmailId))
    (emails : List EmailFacts) : Naming := fun id sealed hash =>
  names id sealed hash ∨ ∃ facts ∈ emails, (facts.identity sealer, id) ∈ waiting ∧
    hash ∈ namedHashes sealer facts.personal

/-- The waiting row an identity takes waits under it. -/
theorem popWaiting_some {waiting : List (Identity × EmailId)} {identity : Identity} {id : EmailId}
    (h : (popWaiting waiting identity).1 = some id) : (identity, id) ∈ waiting := by
  unfold popWaiting at h
  split at h
  · rename_i known id' hfound
    obtain rfl := Option.some.inj h
    have hknown : known = identity := by simpa using List.find?_some hfound
    exact hknown ▸ List.mem_reverse.1 (List.mem_of_find?_eq_some hfound)
  · cases h

/-- **One message of a batch** that carries no Gmail items. -/
theorem Woven.writeFacts {sealer : Sealer} {mint : Nat → Minted} {labels : Labels}
    {b b' : Batching} {message : EmailFacts × Nat} {waiting : List (Identity × EmailId)}
    {emails : List EmailFacts}
    (hb : Woven (names.waiting sealer waiting emails) free b.writing.tables)
    (hnames : ∀ id personal sealed, sealer.blob id personal = .ok sealed →
      ∀ hash, names id sealed hash ↔ hash ∈ namedHashes sealer personal)
    (hh : HashLive b.writing.tables) (hsub : b.waiting ⊆ waiting) (hin : message.1 ∈ emails)
    (hgmail : message.1.gmail = none) (hnew : ∀ w ∈ waiting, w.2 ≠ (mint message.2).emailId)
    (hg : free (mint message.2).threadId)
    (hw : writeFacts sealer mint folder labels b message = .ok b') :
    Woven (names.waiting sealer waiting emails) free b'.writing.tables ∧ b'.waiting ⊆ waiting := by
  obtain ⟨facts, n⟩ := message
  simp only [Huliho.writeFacts] at hw
  split at hw
  · obtain rfl := Except.ok.inj hw
    exact ⟨hb, hsub⟩
  simp only at hgmail hin hnew hg
  simp only [hgmail] at hw
  have hrest : (popWaiting b.waiting (facts.identity sealer)).2 ⊆ waiting := fun v hv =>
    hsub ((popWaiting_spec b.waiting _).1 hv)
  split at hw
  · simp only [Except.bind_eq_ok, pure, Except.pure, Except.ok.injEq] at hw
    obtain ⟨sealed, hsealed, t, hi, rfl⟩ := hw
    obtain ⟨hj, hfree, hpoints⟩ := hb.join hh (namedHashes sealer facts.personal) hg
    refine ⟨hj.insert hfree (fun hash hn => hpoints hash ?_) hi, hrest⟩
    rcases hn with hn | ⟨facts', -, hwaits, -⟩
    · exact (hnames _ _ _ hsealed hash).1 hn
    · exact absurd rfl (hnew _ hwaits)
  · rename_i id hmatched
    simp only [rewrite, Except.bind_eq_ok, constrained_eq_ok, pure, Except.pure,
      Except.ok.injEq] at hw
    obtain ⟨sealed, hsealed, t, ⟨rows, hup, rfl⟩, rfl⟩ := hw
    have hwaits : (facts.identity sealer, id) ∈ waiting := hsub (popWaiting_some hmatched)
    refine ⟨hb.revised (EmailRecord.matched facts id sealed) (fun _ => Table.mem_update? hup)
      (fun s _ => ?_) rfl, hrest⟩
    unfold EmailRecord.matched
    split
    · rename_i hid
      refine ⟨rfl, fun hash hn => ?_⟩
      rcases hn with hn | hn
      · -- The message names what the row's own message may name.
        exact .inr ⟨facts, hin, hid ▸ hwaits, (hnames _ _ _ (hid ▸ hsealed) hash).1 hn⟩
      · exact .inr hn
    · exact ⟨rfl, fun _ hn => hn⟩

end

end Huliho
