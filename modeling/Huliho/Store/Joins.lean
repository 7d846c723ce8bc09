import Huliho.Store.RowSteps

/-!
# A message joins its thread

A message that names several threads merges them before its row goes in, so one insert can touch
any number of other emails. `merges_spec` says in closed form what the merges do to the rows, the
hashes and the ledger; `join_spec` which threads they are; and `Sound.joinInsert` puts the row on
top: the write stays sound across the whole of it.
-/

namespace Huliho

variable {before : Tables} {w : Writing}

/-! ## Many merges into one thread -/

/-- The row after every one of `losers` merged into `thread`. -/
def EmailRecord.rethreads (losers : List ThreadId) (thread : ThreadId) (r : EmailRecord) :
    EmailRecord :=
  if r.threadId ∈ losers then { r with threadId := thread } else r

/-- The hash after every one of `losers` merged into `thread`. -/
def MessageIdRecord.rethreads (losers : List ThreadId) (thread : ThreadId) (r : MessageIdRecord) :
    MessageIdRecord :=
  if r.threadId ∈ losers then { r with threadId := thread } else r

@[simp] theorem EmailRecord.rethreads_id (losers : List ThreadId) (thread : ThreadId)
    (r : EmailRecord) : (r.rethreads losers thread).id = r.id := by
  unfold EmailRecord.rethreads; split <;> rfl

@[simp] theorem EmailRecord.rethreads_uid (losers : List ThreadId) (thread : ThreadId)
    (r : EmailRecord) : (r.rethreads losers thread).uid = r.uid := by
  unfold EmailRecord.rethreads; split <;> rfl

@[simp] theorem EmailRecord.rethreads_folderId (losers : List ThreadId) (thread : ThreadId)
    (r : EmailRecord) : (r.rethreads losers thread).folderId = r.folderId := by
  unfold EmailRecord.rethreads; split <;> rfl

@[simp] theorem EmailRecord.rethreads_gmailMsgid (losers : List ThreadId) (thread : ThreadId)
    (r : EmailRecord) : (r.rethreads losers thread).gmailMsgid = r.gmailMsgid := by
  unfold EmailRecord.rethreads; split <;> rfl

theorem EmailRecord.rethreads_identity (losers : List ThreadId) (thread : ThreadId)
    (r : EmailRecord) : (r.rethreads losers thread).identity = r.identity := by
  unfold EmailRecord.rethreads; split <;> rfl

theorem EmailRecord.rethreads_threadId (losers : List ThreadId) (thread : ThreadId)
    (r : EmailRecord) :
    (r.rethreads losers thread).threadId = if r.threadId ∈ losers then thread else r.threadId := by
  unfold EmailRecord.rethreads; split <;> rfl

/-- One merge, then the rest: a row one merge moved is in no thread that merges later. -/
theorem EmailRecord.rethreads_cons {loser thread : ThreadId} {losers : List ThreadId}
    (ht : thread ∉ losers) (r : EmailRecord) :
    (r.rethread loser thread).rethreads losers thread = r.rethreads (loser :: losers) thread := by
  unfold EmailRecord.rethread EmailRecord.rethreads
  by_cases h : r.threadId = loser
  · simp [h, ht]
  · simp [h]

theorem MessageIdRecord.rethreads_cons {loser thread : ThreadId} {losers : List ThreadId}
    (ht : thread ∉ losers) (r : MessageIdRecord) :
    (r.rethread loser thread).rethreads losers thread = r.rethreads (loser :: losers) thread := by
  unfold MessageIdRecord.rethread MessageIdRecord.rethreads
  by_cases h : r.threadId = loser
  · simp [h, ht]
  · simp [h]

/-- What a run of merges says about one object. -/
def mergedItems (losers : List ThreadId) (w : Writing) : Item → Option ChangeKind
  | .email id =>
    if ∃ r ∈ w.tables.emails.rows, r.id = id ∧ r.threadId ∈ losers then
      fold (w.ledger.items (.email id)) .updated
    else w.ledger.items (.email id)
  | .thread thread =>
    if thread ∈ losers then fold (w.ledger.items (.thread thread)) .destroyed
    else w.ledger.items (.thread thread)

/-- One merge notes the emails of the loser as updated and the loser as destroyed. -/
theorem items_merge (w : Writing) (loser thread : ThreadId) (x : Item) :
    (merge w loser thread).ledger.items x = mergedItems [loser] w x := by
  have hnoted : ∀ y : Item, Ledger.items ((emailsOf w.tables loser).foldl
      (fun ledger email => ledger.note (.email, email) .updated) w.ledger) y =
        if ∃ email ∈ emailsOf w.tables loser, (ObjectType.email, email) = y.slot then
          fold (w.ledger.items y) .updated else w.ledger.items y := fun y =>
    Ledger.kind_foldl_note (fun email => (ObjectType.email, email)) y.slot _ _
  rw [merge, Ledger.items_note_thread, hnoted, hnoted]
  cases x with
  | email id =>
    have hin : (∃ email ∈ emailsOf w.tables loser, (ObjectType.email, email) = (.email, id)) ↔
        ∃ r ∈ w.tables.emails.rows, r.id = id ∧ r.threadId ∈ [loser] := by
      simp only [Prod.mk.injEq, true_and, exists_eq_right, mem_emailsOf_iff, List.mem_singleton]
      exact Iff.rfl
    simp only [reduceCtorEq, if_false, Item.slot, hin, mergedItems]
  | thread t =>
    simp only [Item.thread.injEq, Item.slot, Prod.mk.injEq, reduceCtorEq, false_and, and_false,
      exists_false, if_false, mergedItems, List.mem_singleton]
    by_cases ht : t = loser
    · simp [ht]
    · simp [ht]

/-- **The merges in closed form.** -/
theorem merges_spec {thread : ThreadId} :
    ∀ {losers : List ThreadId} {w : Writing}, losers.Nodup → thread ∉ losers →
      let w' := losers.foldl (fun w loser => merge w loser thread) w
      (∀ s, s ∈ w'.tables.emails ↔ ∃ r ∈ w.tables.emails, r.rethreads losers thread = s) ∧
      (∀ s, s ∈ w'.tables.messageIds ↔
        ∃ r ∈ w.tables.messageIds, r.rethreads losers thread = s) ∧
      w'.tables = { w.tables with
        emails := w'.tables.emails, messageIds := w'.tables.messageIds } ∧
      ∀ x, w'.ledger.items x = mergedItems losers w x := by
  intro losers
  induction losers with
  | nil =>
    intro w _ _
    refine ⟨fun s => ?_, fun s => ?_, rfl, fun x => ?_⟩
    · simp [EmailRecord.rethreads]
    · simp [MessageIdRecord.rethreads]
    · cases x <;> simp [mergedItems]
  | cons loser losers ih =>
    intro w hnd ht
    obtain ⟨hl, hnd⟩ := List.nodup_cons.1 hnd
    rw [List.mem_cons, not_or] at ht
    obtain ⟨hne, ht⟩ := ht
    obtain ⟨he, hm, hframe, hi⟩ := ih (w := merge w loser thread) hnd ht
    have hemails : ∀ s, s ∈ (merge w loser thread).tables.emails ↔
        ∃ r ∈ w.tables.emails, r.rethread loser thread = s := fun s =>
      Table.mem_revise (EmailRecord.rethread_apart loser thread)
    have hids : ∀ s, s ∈ (merge w loser thread).tables.messageIds ↔
        ∃ r ∈ w.tables.messageIds, r.rethread loser thread = s := fun s =>
      Table.mem_revise (MessageIdRecord.rethread_apart loser thread)
    rw [List.foldl_cons]
    refine ⟨fun s => ?_, fun s => ?_, ?_, fun x => ?_⟩
    · simp only [he, hemails, exists_exists_and_eq_and, EmailRecord.rethreads_cons ht]
    · simp only [hm, hids, exists_exists_and_eq_and, MessageIdRecord.rethreads_cons ht]
    · rw [hframe]; rfl
    · rw [hi]
      cases x with
      | email id =>
        have hlater : (∃ r ∈ (merge w loser thread).tables.emails.rows,
            r.id = id ∧ r.threadId ∈ losers) ↔
            ∃ r ∈ w.tables.emails.rows, r.id = id ∧ r.threadId ∈ losers := by
          simp only [← Table.mem_def, hemails, exists_exists_and_eq_and]
          refine exists_congr fun r => and_congr_right fun _ => ?_
          unfold EmailRecord.rethread
          by_cases hr : r.threadId = loser
          · simp [hr, hl, ht]
          · simp [hr]
        simp only [mergedItems, hlater, items_merge, List.mem_cons, List.not_mem_nil, or_false]
        by_cases hone : ∃ r ∈ w.tables.emails.rows, r.id = id ∧ r.threadId = loser
        · have hall : ∃ r ∈ w.tables.emails.rows,
              r.id = id ∧ (r.threadId = loser ∨ r.threadId ∈ losers) := by
            obtain ⟨r, hr, h1, h2⟩ := hone
            exact ⟨r, hr, h1, .inl h2⟩
          simp only [if_pos hone, if_pos hall, Ledger.fold_updated_updated, ite_self]
        · have hrest : (∃ r ∈ w.tables.emails.rows,
              r.id = id ∧ (r.threadId = loser ∨ r.threadId ∈ losers)) ↔
              ∃ r ∈ w.tables.emails.rows, r.id = id ∧ r.threadId ∈ losers := by
            constructor
            · rintro ⟨r, hr, h1, h2 | h2⟩
              · exact absurd ⟨r, hr, h1, h2⟩ hone
              · exact ⟨r, hr, h1, h2⟩
            · rintro ⟨r, hr, h1, h2⟩
              exact ⟨r, hr, h1, .inr h2⟩
          simp only [if_neg hone, hrest]
      | thread t =>
        simp only [mergedItems, items_merge, List.mem_cons, List.not_mem_nil, or_false]
        by_cases htl : t = loser
        · subst htl
          simp [hl]
        · simp [htl]

/-! ## The threads a header names -/

/-- The named threads: each with its size, each pointed at by some hash, none twice. -/
theorem named_spec {t : Tables} (hashes : List Bytes) :
    (∀ p ∈ named t hashes, p.1 = size t p.2 ∧ ∃ hash, threadOf t hash = some p.2) ∧
      ((named t hashes).map Prod.snd).Nodup := by
  suffices h : ∀ acc : List (Nat × ThreadId),
      (∀ p ∈ acc, p.1 = size t p.2 ∧ ∃ hash, threadOf t hash = some p.2) →
      (acc.map Prod.snd).Nodup →
      let out := hashes.foldl (nameOne t) acc
      (∀ p ∈ out, p.1 = size t p.2 ∧ ∃ hash, threadOf t hash = some p.2) ∧
        (out.map Prod.snd).Nodup from h [] (by simp) (by simp)
  induction hashes with
  | nil => exact fun acc ha hn => ⟨ha, hn⟩
  | cons hash hashes ih =>
    intro acc ha hn
    rw [List.foldl_cons]
    cases hth : threadOf t hash with
    | none =>
      rw [nameOne, hth]
      exact ih acc ha hn
    | some thread =>
      rw [nameOne, hth]
      simp only
      split
      · exact ih acc ha hn
      · rename_i hnew
        refine ih _ (fun p hp => ?_) ?_
        · rcases List.mem_append.1 hp with hp | hp
          · exact ha p hp
          · obtain rfl := List.mem_singleton.1 hp
            exact ⟨rfl, hash, hth⟩
        · rw [List.map_append, List.nodup_append]
          refine ⟨hn, by simp, ?_⟩
          rintro a hm b hb rfl
          obtain ⟨q, hq, rfl⟩ := List.mem_map.1 hm
          simp only [List.map_cons, List.map_nil, List.mem_singleton] at hb
          exact hnew (List.any_eq_true.2 ⟨q, hq, by simpa using hb⟩)

/-- What `join` did: `losers` merged into `thread`, which is noted as `kind`. -/
structure Joined (w : Writing) (losers : List ThreadId) (thread : ThreadId) (kind : ChangeKind)
    (w' : Writing) : Prop where
  survivor : thread ∉ losers
  holding : ∀ loser ∈ losers, Holding w.tables loser
  kind_eq : (kind = .created ∧ losers = [] ∧ ¬ Holding w.tables thread) ∨
    (kind = .updated ∧ Holding w.tables thread)
  emails : ∀ s, s ∈ w'.tables.emails ↔ ∃ r ∈ w.tables.emails, r.rethreads losers thread = s
  messageIds : ∀ s ∈ w'.tables.messageIds,
    s.threadId = thread ∨ ∃ r ∈ w.tables.messageIds, r.rethreads losers thread = s
  frame : w'.tables = { w.tables with
    emails := w'.tables.emails, messageIds := w'.tables.messageIds }
  items : ∀ x, w'.ledger.items x =
    if x = .thread thread then fold (w.ledger.items x) kind else mergedItems losers w x

/-- The hashes pointed at a thread. -/
theorem mem_points {thread : ThreadId} :
    ∀ {hashes : List Bytes} {t : Tables} {s : MessageIdRecord},
      s ∈ (hashes.foldl (point thread) t).messageIds → s.threadId = thread ∨ s ∈ t.messageIds := by
  intro hashes
  induction hashes with
  | nil => exact fun h => .inr h
  | cons hash hashes ih =>
    intro t s h
    rcases ih h with h | h
    · exact .inl h
    · rcases mem_point.1 h with rfl | ⟨-, h⟩
      · exact .inl rfl
      · exact .inr h

theorem points_frame {thread : ThreadId} :
    ∀ {hashes : List Bytes} {t : Tables}, hashes.foldl (point thread) t =
      { t with messageIds := (hashes.foldl (point thread) t).messageIds } := by
  intro hashes
  induction hashes with
  | nil => intro t; rfl
  | cons hash hashes ih => intro t; rw [List.foldl_cons, ih]; rfl

/-- The threads a join works on, largest first: each holds an email, none stands twice. -/
theorem named_sorted {t : Tables} (hh : HashLive t) (hashes : List Bytes) :
    (∀ p ∈ (named t hashes).insertionSort Larger, p.1 = size t p.2 ∧ Holding t p.2) ∧
      (((named t hashes).insertionSort Larger).map Prod.snd).Nodup := by
  obtain ⟨hnamed, hnodup⟩ := named_spec (t := t) hashes
  have hperm := List.perm_insertionSort Larger (named t hashes)
  refine ⟨fun p hp => ?_, (hperm.map Prod.snd).nodup_iff.2 hnodup⟩
  obtain ⟨hsize, hash, hth⟩ := hnamed p (hperm.mem_iff.1 hp)
  exact ⟨hsize, hh _ (threadOf_eq_some.1 hth)⟩

/-- The thread a message joins holds an email already, or is the generated one. -/
theorem join_thread (hh : HashLive w.tables) (hashes : List Bytes) (generated : ThreadId) :
    Holding w.tables (join w hashes generated).2 ∨ (join w hashes generated).2 = generated := by
  obtain ⟨hholding, -⟩ := named_sorted hh hashes
  unfold join
  revert hholding
  generalize (named w.tables hashes).insertionSort Larger = sorted
  intro hholding
  cases sorted with
  | nil => exact .inr rfl
  | cons p losers => exact .inl (hholding p List.mem_cons_self).2

/-- **What a join does.** A generated thread is new, and a hash never points at an empty one, so
the kind the survivor is noted as is right before a single row moves. -/
theorem join_spec (hh : HashLive w.tables) (hashes : List Bytes) {generated : ThreadId}
    (hg : ¬ Holding w.tables generated) :
    ∃ losers kind, Joined w losers (join w hashes generated).2 kind
      (join w hashes generated).1 := by
  obtain ⟨hholding, hsorted⟩ := named_sorted hh hashes
  unfold join
  revert hholding hsorted
  generalize (named w.tables hashes).insertionSort Larger = sorted
  intro hholding hsorted
  cases sorted with
  | nil =>
    simp only [List.head?_nil, Option.getD_none, List.tail_nil, List.foldl_nil, and_self, if_true]
    refine ⟨[], .created, by simp, by simp, .inl ⟨rfl, rfl, hg⟩, fun s => ?_, fun s hs => ?_, ?_,
      fun x => ?_⟩
    · rw [points_frame]
      simp [EmailRecord.rethreads]
    · rcases mem_points hs with hs | hs
      · exact .inl hs
      · exact .inr ⟨s, hs, by simp [MessageIdRecord.rethreads]⟩
    · rw [points_frame]
    · rw [Ledger.items_note_thread]
      by_cases hx : x = .thread generated
      · subst hx
        rfl
      · simp only [if_neg hx]
        cases x <;> simp [mergedItems]
  | cons p losers =>
    have hlosers : losers.foldl (fun w loser => merge w loser.2 p.2) w =
        (losers.map Prod.snd).foldl (fun w loser => merge w loser p.2) w := by
      rw [List.foldl_map]
    obtain ⟨hp, hrest⟩ := List.nodup_cons.1 hsorted
    obtain ⟨he, hm, hframe, hi⟩ := merges_spec (w := w) hrest hp
    have hheld : p.1 ≠ 0 := by
      obtain ⟨hsize, hhold⟩ := hholding p List.mem_cons_self
      have := size_pos.2 hhold
      omega
    simp only [List.head?_cons, Option.getD_some, List.tail_cons, hlosers, hheld, false_and,
      if_false]
    refine ⟨losers.map Prod.snd, .updated, hp, fun loser hl => ?_,
      .inr ⟨rfl, (hholding p List.mem_cons_self).2⟩, fun s => ?_, fun s hs => ?_, ?_, fun x => ?_⟩
    · obtain ⟨q, hq, rfl⟩ := List.mem_map.1 hl
      exact (hholding q (List.mem_cons_of_mem _ hq)).2
    · rw [points_frame]
      exact he s
    · rcases mem_points hs with hs | hs
      · exact .inl hs
      · exact .inr ((hm s).1 hs)
    · rw [points_frame, hframe]
    · rw [Ledger.items_note_thread, hi, hi]
      by_cases hx : x = .thread p.2
      · subst hx
        simp [mergedItems, hp]
      · simp [hx]

/-! ## The row on top -/

/-- The row an insert writes. -/
def newRow (facts : EmailFacts) (id : EmailId) (folder : MailboxId) (hash : Option Bytes)
    (sealed : Bytes) (thread : ThreadId) : EmailRecord :=
  { id
    folderId := folder
    uid := facts.uid
    threadId := thread
    keywords := facts.keywords
    size := facts.size
    receivedAt := facts.receivedAt
    sentAt := facts.sentAt
    hasAttachment := facts.hasAttachment
    messageIdHash := hash
    gmailMsgid := none
    sealed }

theorem insert_spec {t t' : Tables} {facts : EmailFacts} {id : EmailId} {folder : MailboxId}
    {hash : Option Bytes} {sealed : Bytes} {thread : ThreadId}
    (h : insert t facts id folder hash sealed thread = .ok t') :
    (∀ s, s ∈ t'.emails ↔ s ∈ t.emails ∨ s = newRow facts id folder hash sealed thread) ∧
    (∀ m, m ∈ t'.memberships ↔ m ∈ t.memberships ∨ m = ⟨id, folder, facts.receivedAt⟩) ∧
    (∀ r ∈ t.emails, r.id ≠ id) ∧
    t' = { t with emails := t'.emails, memberships := t'.memberships } := by
  simp only [insert, Except.bind_eq_ok, constrained_eq_ok, pure, Except.pure,
    Except.ok.injEq] at h
  obtain ⟨emails, he, memberships, hm, rfl⟩ := h
  exact ⟨fun s => Table.mem_insert? he, fun m => Table.mem_insert? hm,
    fun r hr => ((Table.insert?_eq_some he).1 r hr).1, rfl⟩

/-- The rows after a message joined its thread and its row went in. -/
structure Inserted (w : Writing) (losers : List ThreadId) (row : EmailRecord) (t : Tables) :
    Prop where
  survivor : row.threadId ∉ losers
  holding : ∀ loser ∈ losers, Holding w.tables loser
  fresh : ∀ r ∈ w.tables.emails, r.id ≠ row.id
  rows : ∀ s, s ∈ t.emails ↔
    (∃ r ∈ w.tables.emails, r.rethreads losers row.threadId = s) ∨ s = row

/-- Which emails are in which thread after that. -/
theorem Inserted.inThread {losers : List ThreadId} {row : EmailRecord} {t : Tables}
    (h : Inserted w losers row t) {id : EmailId} {thread : ThreadId} :
    InThread t id thread ↔ (thread ∉ losers ∧ InThread w.tables id thread) ∨
      (thread = row.threadId ∧
        (id = row.id ∨ ∃ loser ∈ losers, InThread w.tables id loser)) := by
  simp only [InThread, h.rows]
  constructor
  · rintro ⟨s, ⟨r, hr, rfl⟩ | rfl, hid, hth⟩
    · rw [EmailRecord.rethreads_id] at hid
      rw [EmailRecord.rethreads_threadId] at hth
      split at hth
      · rename_i hl
        exact .inr ⟨hth.symm, .inr ⟨_, hl, r, hr, hid, rfl⟩⟩
      · rename_i hl
        exact .inl ⟨hth ▸ hl, r, hr, hid, hth⟩
    · exact .inr ⟨hth.symm, .inl hid.symm⟩
  · rintro (⟨hl, r, hr, hid, hth⟩ | ⟨rfl, rfl | ⟨loser, hl, r, hr, hid, hth⟩⟩)
    · refine ⟨_, .inl ⟨r, hr, rfl⟩, by rw [EmailRecord.rethreads_id, hid], ?_⟩
      rw [EmailRecord.rethreads_threadId, if_neg (hth ▸ hl), hth]
    · exact ⟨row, .inr rfl, rfl, rfl⟩
    · refine ⟨_, .inl ⟨r, hr, rfl⟩, by rw [EmailRecord.rethreads_id, hid], ?_⟩
      rw [EmailRecord.rethreads_threadId, if_pos (hth ▸ hl)]

/-- A thread holds an email afterwards unless it merged away; the row's own always does. -/
theorem Inserted.holding_iff {losers : List ThreadId} {row : EmailRecord} {t : Tables}
    (h : Inserted w losers row t) {thread : ThreadId} :
    Holding t thread ↔ thread = row.threadId ∨ (thread ∉ losers ∧ Holding w.tables thread) := by
  have hin : ∀ t : Tables, Holding t thread ↔ ∃ id, InThread t id thread := fun t => by
    simp [InThread, Holding]
  rw [hin, hin]
  constructor
  · rintro ⟨id, hid⟩
    rcases h.inThread.1 hid with ⟨hl, hid⟩ | ⟨rfl, -⟩
    · exact .inr ⟨hl, id, hid⟩
    · exact .inl rfl
  · rintro (rfl | ⟨hl, id, hid⟩)
    · exact ⟨row.id, h.inThread.2 (.inr ⟨rfl, .inl rfl⟩)⟩
    · exact ⟨id, h.inThread.2 (.inl ⟨hl, hid⟩)⟩

/-- **A message joins its thread and its row goes in.** The survivor and the email are noted, the
losers with every email they held, and nothing else moved. -/
theorem Sound.joinInsert (h : Sound before w) {hashes : List Bytes} {generated : ThreadId}
    (hg : ¬ Holding w.tables generated) {facts : EmailFacts} {id : EmailId} {folder : MailboxId}
    {hash : Option Bytes} {sealed : Bytes} {t : Tables}
    (hi : insert (join w hashes generated).1.tables facts id folder hash sealed
      (join w hashes generated).2 = .ok t) :
    Sound before ⟨t, (join w hashes generated).1.ledger.note (.email, id) .created⟩ ∧
      ∃ losers, Inserted w losers
        (newRow facts id folder hash sealed (join w hashes generated).2) t := by
  obtain ⟨losers, kind, hj⟩ := join_spec h.hashes hashes hg
  revert hi hj
  generalize join w hashes generated = joined
  obtain ⟨w₁, thread⟩ := joined
  intro hi hj
  simp only at hi hj ⊢
  obtain ⟨hrows, hmems, hnew, hframe⟩ := insert_spec hi
  set row := newRow facts id folder hash sealed thread with hrow
  have hmembers : w₁.tables.memberships = w.tables.memberships := by rw [hj.frame]
  have hins : Inserted w losers row t := by
    refine ⟨hj.survivor, hj.holding, fun r hr hid => ?_, fun s => ?_⟩
    · refine hnew _ ((hj.emails _).2 ⟨r, hr, rfl⟩) ?_
      rw [EmailRecord.rethreads_id]
      exact hid
    · rw [hrows, hj.emails]
      exact Iff.rfl
  refine ⟨h.step (fun x => ?_) (fun s hs => ?_) (fun m hm => ?_) ?_ ?_, losers, hins⟩
  · show Stepped _ _ _ (Ledger.items (w₁.ledger.note _ _) x) _ _
    rw [Ledger.items_note_email, hj.items, hj.items]
    cases x with
    | email id' =>
      by_cases hid : id' = id
      · subst hid
        have hnot : ¬ ∃ r ∈ w.tables.emails.rows, r.id = id' ∧ r.threadId ∈ losers :=
          fun ⟨r, hr, hc, _⟩ => hins.fresh r hr hc
        refine .noted .created (by simp [mergedItems, hnot]) ⟨?_, ?_⟩
        · exact view_email_eq_none.2 hins.fresh
        · exact view_email_isSome.2 ⟨row, (hins.rows row).2 (.inr rfl), rfl⟩
      · by_cases hl : ∃ r ∈ w.tables.emails.rows, r.id = id' ∧ r.threadId ∈ losers
        · refine .noted .updated (by simp [mergedItems, hid, hl]) ⟨?_, ?_⟩
          · obtain ⟨r, hr, hid', -⟩ := hl
            exact view_email_isSome.2 ⟨r, hr, hid'⟩
          · obtain ⟨r, hr, hid', -⟩ := hl
            exact view_email_isSome.2 ⟨_, (hins.rows _).2 (.inl ⟨r, hr, rfl⟩), by simpa using hid'⟩
        · refine .kept (by simp [mergedItems, hid, hl]) ?_ False.elim
          refine view_email_congr (fun thread' keywords => ?_) fun mailbox => ?_
          · have hsame : ∀ r ∈ w.tables.emails, r.id = id' →
                r.rethreads losers row.threadId = r :=
              fun r hr hc => if_neg fun hin => hl ⟨r, hr, hc, hin⟩
            simp only [EmailAt, hins.rows]
            constructor
            · rintro ⟨s, ⟨r, hr, rfl⟩ | rfl, hc, hrest⟩
              · rw [EmailRecord.rethreads_id] at hc
                rw [hsame r hr hc] at hrest
                exact ⟨r, hr, hc, hrest⟩
              · exact absurd hc.symm hid
            · rintro ⟨r, hr, hc, hrest⟩
              exact ⟨r, .inl ⟨r, hr, hsame r hr hc⟩, hc, hrest⟩
          · simp only [MemberOf, hmems, hmembers]
            constructor
            · rintro ⟨m, hm | rfl, hc, hrest⟩
              · exact ⟨m, hm, hc, hrest⟩
              · exact absurd hc.symm hid
            · rintro ⟨m, hm, hrest⟩
              exact ⟨m, .inl hm, hrest⟩
    | thread thread' =>
      by_cases hth : thread' = thread
      · subst hth
        have hafter : (view t (.thread thread')).isSome :=
          view_thread_isSome.2 (hins.holding_iff.2 (.inl rfl))
        rcases hj.kind_eq with ⟨rfl, -, hempty⟩ | ⟨rfl, hhold⟩
        · exact .noted .created (by simp) ⟨view_thread_eq_none.2 hempty, hafter⟩
        · exact .noted .updated (by simp) ⟨view_thread_isSome.2 hhold, hafter⟩
      · by_cases hl : thread' ∈ losers
        · refine .noted .destroyed (by simp [mergedItems, hth, hl])
            ⟨view_thread_isSome.2 (hins.holding _ hl), view_thread_eq_none.2 fun hc => ?_⟩
          rcases hins.holding_iff.1 hc with hc | ⟨hc, -⟩
          · exact hth hc
          · exact hc hl
        · refine .kept (by simp [mergedItems, hth, hl]) ?_ False.elim
          refine view_thread_congr fun id' => ?_
          rw [hins.inThread]
          constructor
          · rintro (⟨-, hin⟩ | ⟨hc, -⟩)
            · exact hin
            · exact absurd hc hth
          · exact fun hin => .inl ⟨hl, hin⟩
  · have hs' : s ∈ w₁.tables.messageIds := by rw [hframe] at hs; exact hs
    rw [hins.holding_iff]
    rcases hj.messageIds s hs' with hs | ⟨r, hr, rfl⟩
    · exact .inl hs
    · unfold MessageIdRecord.rethreads
      split
      · exact .inl rfl
      · rename_i hl
        exact .inr ⟨hl, h.hashes r hr⟩
  · rcases (hmems m).1 hm with hm | rfl
    · rw [hmembers] at hm
      obtain ⟨r, hr, hid⟩ := h.members m hm
      exact ⟨_, (hins.rows _).2 (.inl ⟨r, hr, rfl⟩), by simpa using hid⟩
    · exact ⟨row, (hins.rows row).2 (.inr rfl), rfl⟩
  · rw [hframe, hj.frame]
  · rw [hframe, hj.frame]

end Huliho
