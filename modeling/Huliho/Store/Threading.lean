import Huliho.Lib.Partition
import Huliho.Store.Run

/-!
# Threads are the chains of shared message ids

On a folder account the threads are an incremental union-find: every arrival merges the threads its
hashes name and points all of them at the survivor. `Arriving` is an account that only gains
messages, in any batches and any order; `Arriving.threads` says what its threads come to — the
classes of the relation "shares a message id", which knows no order.
-/

namespace Huliho

/-- Where a message lies: its folder and the UID there. -/
abbrev Place := MailboxId × Int

def EmailRecord.place (r : EmailRecord) : Place := (r.folderId, r.uid)

/-- The messages of an account, by folder and UID. -/
abbrev Mail := MailboxId → Nat → Option EmailFacts

/-- The header of the message at `p` names `hash`. -/
def NamedAt (sealer : Sealer) (mail : Mail) (p : Place) (hash : Bytes) : Prop :=
  ∃ facts, mail p.1 p.2.toNat = some facts ∧ hash ∈ namedHashes sealer facts.personal

/-- The email stored at `p` stands in `thread`. -/
def StandsIn (t : Tables) (p : Place) (thread : ThreadId) : Prop :=
  ∃ r ∈ t.emails, r.place = p ∧ r.threadId = thread

/-- The row of `hash` points at `thread`. -/
def PointsAt (t : Tables) (hash : Bytes) (thread : ThreadId) : Prop :=
  ⟨hash, thread⟩ ∈ t.messageIds

/-! ## One join, both tables -/

/-- The hashes pointed at a thread, in closed form. -/
theorem mem_points_iff {thread : ThreadId} :
    ∀ {hashes : List Bytes} {t : Tables} {s : MessageIdRecord},
      s ∈ (hashes.foldl (point thread) t).messageIds ↔
        (s.messageIdHash ∈ hashes ∧ s.threadId = thread) ∨
          (s.messageIdHash ∉ hashes ∧ s ∈ t.messageIds) := by
  intro hashes
  induction hashes with
  | nil => simp
  | cons hash hashes ih =>
    intro t s
    rw [List.foldl_cons, ih, mem_point, List.mem_cons, not_or]
    constructor
    · rintro (⟨hs, hth⟩ | ⟨hs, rfl | ⟨hne, hold⟩⟩)
      · exact .inl ⟨.inr hs, hth⟩
      · exact .inl ⟨.inl rfl, rfl⟩
      · exact .inr ⟨⟨hne, hs⟩, hold⟩
    · rintro (⟨rfl | hs, hth⟩ | ⟨⟨hne, hs⟩, hold⟩)
      · by_cases hin : s.messageIdHash ∈ hashes
        · exact .inl ⟨hin, hth⟩
        · exact .inr ⟨hin, .inl (by rw [← hth])⟩
      · exact .inl ⟨hs, hth⟩
      · exact .inr ⟨hs, .inr ⟨hne, hold⟩⟩

/-- The named threads are the ones the hashes point at. -/
theorem mem_named {t : Tables} {hashes : List Bytes} {thread : ThreadId} :
    thread ∈ (named t hashes).map Prod.snd ↔ ∃ hash ∈ hashes, PointsAt t hash thread := by
  suffices h : ∀ acc : List (Nat × ThreadId),
      thread ∈ (hashes.foldl (nameOne t) acc).map Prod.snd ↔
        thread ∈ acc.map Prod.snd ∨ ∃ hash ∈ hashes, PointsAt t hash thread by
    rw [named, h]
    simp
  induction hashes with
  | nil => simp
  | cons hash hashes ih =>
    intro acc
    have hone : thread ∈ (nameOne t acc hash).map Prod.snd ↔
        thread ∈ acc.map Prod.snd ∨ PointsAt t hash thread := by
      unfold nameOne PointsAt
      rw [← threadOf_eq_some]
      cases threadOf t hash with
      | none => simp
      | some known =>
        simp only [Option.some.injEq]
        split
        · rename_i hany
          obtain ⟨q, hq, hk⟩ := List.any_eq_true.1 hany
          have hin : known ∈ acc.map Prod.snd :=
            List.mem_map.2 ⟨q, hq, of_decide_eq_true hk⟩
          exact ⟨.inl, fun h => h.elim id fun hk => hk ▸ hin⟩
        · rw [List.map_append, List.mem_append, List.map_cons, List.map_nil,
            List.mem_singleton, eq_comm (a := thread)]
    rw [List.foldl_cons, ih, hone, or_assoc]
    simp

/-- **What a join does to the two tables**: every thread the hashes point at becomes `thread`,
which is one of them or, where there is none, the generated one; every hash points at it. -/
structure JoinsAll (w : Writing) (hashes : List Bytes) (generated : ThreadId) (losers : List ThreadId)
    (w' : Writing) (thread : ThreadId) : Prop where
  merged : ∀ e, (∃ hash ∈ hashes, PointsAt w.tables hash e) → e = thread ∨ e ∈ losers
  losing : ∀ e ∈ losers, ∃ hash ∈ hashes, PointsAt w.tables hash e
  survivor : (∃ hash ∈ hashes, PointsAt w.tables hash thread) ∨ thread = generated
  emails : ∀ s, s ∈ w'.tables.emails ↔ ∃ r ∈ w.tables.emails, r.rethreads losers thread = s
  messageIds : ∀ s, s ∈ w'.tables.messageIds ↔
    (s.messageIdHash ∈ hashes ∧ s.threadId = thread) ∨ (s.messageIdHash ∉ hashes ∧
      ∃ r ∈ w.tables.messageIds, r.rethreads losers thread = s)

theorem join_all (w : Writing) (hashes : List Bytes) (generated : ThreadId) :
    ∃ losers, JoinsAll w hashes generated losers (join w hashes generated).1
      (join w hashes generated).2 := by
  have hperm := List.perm_insertionSort Larger (named w.tables hashes)
  have hall : ∀ e, e ∈ ((named w.tables hashes).insertionSort Larger).map Prod.snd ↔
      ∃ hash ∈ hashes, PointsAt w.tables hash e := fun e => by
    rw [(hperm.map Prod.snd).mem_iff, mem_named]
  have hnodup := (hperm.map Prod.snd).nodup_iff.2 (named_spec (t := w.tables) hashes).2
  unfold join
  revert hall hnodup
  generalize (named w.tables hashes).insertionSort Larger = sorted
  intro hall hnodup
  cases sorted with
  | nil =>
    simp only [List.head?_nil, Option.getD_none, List.tail_nil, List.foldl_nil]
    refine ⟨[], fun e he => ?_, by simp, .inr rfl, fun s => ?_, fun s => ?_⟩
    · simpa using (hall e).2 he
    · rw [points_frame]
      simp [EmailRecord.rethreads]
    · rw [mem_points_iff]
      simp [MessageIdRecord.rethreads]
  | cons p losers =>
    have hlosers : losers.foldl (fun w loser => merge w loser.2 p.2) w =
        (losers.map Prod.snd).foldl (fun w loser => merge w loser p.2) w := by
      rw [List.foldl_map]
    obtain ⟨hp, hrest⟩ := List.nodup_cons.1 hnodup
    obtain ⟨he, hm, -, -⟩ := merges_spec (w := w) hrest hp
    simp only [List.head?_cons, Option.getD_some, List.tail_cons, hlosers]
    simp only [List.map_cons, List.mem_cons] at hall
    refine ⟨losers.map Prod.snd, fun e h => (hall e).2 h, fun e h => (hall e).1 (.inr h),
      .inl ((hall p.2).1 (.inl rfl)), fun s => ?_, fun s => ?_⟩
    · rw [points_frame]
      exact he s
    · rw [mem_points_iff, hm]

/-! ## One arrival -/

/-- The rows of an account that only gains messages: the threads are kept, and nothing waits. -/
structure Threaded (sealer : Sealer) (mail : Mail) (t : Tables) : Prop where
  partition : Partition (NamedAt sealer mail) (StandsIn t) (PointsAt t)
  settled : ∀ r ∈ t.emails, 0 ≤ r.uid

variable {sealer : Sealer} {mail : Mail}

/-- Only the places and threads of the rows and the hashes are read. -/
theorem Threaded.congr {t t' : Tables} (h : Threaded sealer mail t)
    (he : ∀ p c, StandsIn t' p c ↔ StandsIn t p c)
    (hm : ∀ hash c, PointsAt t' hash c ↔ PointsAt t hash c) : Threaded sealer mail t' := by
  refine ⟨h.partition.congr he hm, fun r hr => ?_⟩
  obtain ⟨s, hs, hp, -⟩ := (he r.place r.threadId).1 ⟨r, hr, rfl, rfl⟩
  have huid : s.uid = r.uid := congrArg Prod.snd hp
  rw [← huid]
  exact h.settled s hs

theorem Threaded.ofRows {t t' : Tables} (h : Threaded sealer mail t) (he : t'.emails = t.emails)
    (hm : t'.messageIds = t.messageIds) : Threaded sealer mail t' :=
  h.congr (fun p c => by simp only [StandsIn, he]) fun hash c => by simp only [PointsAt, hm]

/-- **A message joins its thread and goes in.** -/
theorem Threaded.inserted {w : Writing} {t : Tables} (h : Threaded sealer mail w.tables)
    {facts : EmailFacts} {folder : MailboxId} {generated : ThreadId} {id : EmailId}
    {hash : Option Bytes} {blob : Bytes} (hfacts : mail folder facts.uid = some facts)
    (hfree : ¬ holds w.tables folder facts.uid) (hg : ¬ Holding w.tables generated)
    (hi : insert (join w (namedHashes sealer facts.personal) generated).1.tables facts id folder
      hash blob (join w (namedHashes sealer facts.personal) generated).2 = .ok t) :
    Threaded sealer mail t := by
  obtain ⟨losers, hj⟩ := join_all w (namedHashes sealer facts.personal) generated
  obtain ⟨hrows, -, -, hframe⟩ := insert_spec hi
  revert hj hrows hframe
  generalize join w (namedHashes sealer facts.personal) generated = joined
  obtain ⟨w', thread⟩ := joined
  intro hj hrows hframe
  have hnames : ∀ k, NamedAt sealer mail (folder, (facts.uid : Int)) k ↔
      k ∈ namedHashes sealer facts.personal := fun k => by
    simp [NamedAt, hfacts]
  have hjoins : ∀ e, Partition.Joins (NamedAt sealer mail) (PointsAt w.tables)
      (folder, (facts.uid : Int)) e ↔
        ∃ k ∈ namedHashes sealer facts.personal, PointsAt w.tables k e := fun e => by
    simp only [Partition.Joins, hnames]
  -- What a row's thread becomes.
  have hmoved : ∀ e d, (if e ∈ losers then thread else e) = d ↔
      (∃ k ∈ namedHashes sealer facts.personal, PointsAt w.tables k e) ∧ d = thread ∨
        ¬ (∃ k ∈ namedHashes sealer facts.personal, PointsAt w.tables k e) ∧ d = e := by
    intro e d
    by_cases hl : e ∈ losers
    · have := hj.losing e hl
      simp only [if_pos hl, this, true_and, not_true_eq_false, false_and, or_false]
      exact eq_comm
    · rw [if_neg hl]
      by_cases hp : ∃ k ∈ namedHashes sealer facts.personal, PointsAt w.tables k e
      · obtain rfl := (hj.merged e hp).resolve_right hl
        simp only [hp, true_and, not_true_eq_false, false_and, or_false]
        exact eq_comm
      · simp only [hp, false_and, not_false_eq_true, true_and, false_or]
        exact eq_comm
  refine ⟨h.partition.join (x := (folder, (facts.uid : Int))) (c := thread) ?_ ?_ ?_ ?_, ?_⟩
  · rintro d ⟨r, hr, hp, -⟩
    refine hfree (Option.isSome_iff_ne_none.2 fun hnone => ?_)
    exact Table.find?_eq_none.1 hnone r hr ⟨congrArg Prod.fst hp, congrArg Prod.snd hp⟩
  · refine hj.survivor.imp (fun hs => (hjoins thread).2 hs) fun hs p hp => ?_
    obtain ⟨r, hr, -, hth⟩ := hp
    exact hg ⟨r, hr, hth.trans hs⟩
  · intro p d
    simp only [hjoins, ← hmoved]
    constructor
    · rintro ⟨s, hs, rfl, rfl⟩
      rcases (hrows s).1 hs with hs | rfl
      · obtain ⟨r, hr, rfl⟩ := (hj.emails s).1 hs
        refine .inr ⟨r.threadId, ⟨r, hr, ?_, rfl⟩, (EmailRecord.rethreads_threadId ..).symm⟩
        simp [EmailRecord.place]
      · exact .inl ⟨rfl, rfl⟩
    · rintro (⟨rfl, rfl⟩ | ⟨e, ⟨r, hr, rfl, rfl⟩, rfl⟩)
      · exact ⟨_, (hrows _).2 (.inr rfl), rfl, rfl⟩
      · refine ⟨_, (hrows _).2 (.inl ((hj.emails _).2 ⟨r, hr, rfl⟩)), ?_,
          EmailRecord.rethreads_threadId ..⟩
        simp [EmailRecord.place]
  · intro k d
    simp only [hjoins, hnames, ← hmoved]
    rw [PointsAt, hframe]
    simp only [hj.messageIds]
    refine or_congr_right (and_congr_right fun _ => ?_)
    constructor
    · rintro ⟨r, hr, hk⟩
      obtain ⟨k', e⟩ := r
      unfold MessageIdRecord.rethreads at hk
      split at hk
      · rename_i hl
        obtain ⟨rfl, rfl⟩ := MessageIdRecord.mk.inj hk
        exact ⟨e, hr, if_pos hl⟩
      · rename_i hl
        obtain ⟨rfl, rfl⟩ := MessageIdRecord.mk.inj hk
        exact ⟨e, hr, if_neg hl⟩
    · rintro ⟨e, hr, rfl⟩
      refine ⟨⟨k, e⟩, hr, ?_⟩
      unfold MessageIdRecord.rethreads
      split <;> rfl
  · intro s hs
    rcases (hrows s).1 hs with hs | rfl
    · obtain ⟨r, hr, rfl⟩ := (hj.emails s).1 hs
      rw [EmailRecord.rethreads_uid]
      exact h.settled r hr
    · exact Int.natCast_nonneg _

/-! ## One batch -/

/-- The messages of a batch are the account's, none with Gmail items. -/
def Batch.From (batch : Batch) (mail : Mail) : Prop :=
  ∀ facts ∈ batch.emails, mail batch.folder facts.uid = some facts ∧ facts.gmail = none

/-- **One turn of the loop** keeps the threads. -/
theorem Threaded.turn {before : Tables} {folder : MailboxId} {mint : Nat → Minted}
    {emails : List EmailFacts} {p : EmailFacts × Nat} {rest : List (EmailFacts × Nat)}
    {b b' : Batching} {labels : Labels} (hb : BatchInv before folder mint emails (p :: rest) b)
    (h : Threaded sealer mail b.writing.tables)
    (hfrom : ∀ facts ∈ emails, mail folder facts.uid = some facts ∧ facts.gmail = none)
    (hw : b.waiting = []) (hf : writeFacts sealer mint folder labels b p = .ok b') :
    Threaded sealer mail b'.writing.tables ∧ b'.waiting = [] := by
  obtain ⟨facts, n⟩ := p
  obtain ⟨hfacts, hgmail⟩ := hfrom facts (hb.facts _ List.mem_cons_self)
  simp only [writeFacts] at hf
  split at hf
  · obtain rfl : b = b' := by simpa [pure, Except.pure] using hf
    exact ⟨h, hw⟩
  rename_i hfree
  rw [hgmail, hw] at hf
  simp only [popWaiting, List.reverse_nil, List.find?_nil, Except.bind_eq_ok, pure, Except.pure,
    Except.ok.injEq] at hf
  obtain ⟨blob, -, t, hi, rfl⟩ := hf
  exact ⟨h.inserted hfacts hfree (hb.rows.threads _ List.mem_cons_self) hi, rfl⟩

theorem unmatched_eq_nil {t : Tables} {folder : MailboxId} (h : ∀ r ∈ t.emails, 0 ≤ r.uid) :
    unmatched t folder = [] := by
  rw [unmatched, List.map_eq_nil_iff, List.filter_eq_nil_iff]
  intro r hr hc
  have := h r hr
  have hneg : r.uid < 0 := (of_decide_eq_true hc).2
  omega

/-- Nothing waits, so nothing leaves; and no thread with an email left in it loses its hashes. -/
theorem Threaded.leaves {before t : Tables} {folder : MailboxId} {sequence : Nat}
    (h : Threaded sealer mail t) (hs : sequence = t.sequence)
    (hl : Logged before (leave t folder sequence .unmatched)) :
    Threaded sealer mail (leave t folder sequence .unmatched) := by
  have hspec := leave_spec t folder sequence .unmatched
  have hseq : (leave t folder sequence .unmatched).sequence = sequence := by
    rw [hspec.frame, hs]
  have hstays : ∀ r ∈ t.emails, ¬ Leaves folder .unmatched r := fun r hr hc => by
    have := h.settled r hr
    have hneg : r.uid < 0 := hc.2
    omega
  have hemails : ∀ r, r ∈ (leave t folder sequence .unmatched).emails ↔ r ∈ t.emails := fun r =>
    (hspec.emails r).trans ⟨fun h => h.1, fun hr => ⟨hr, hstays r hr⟩⟩
  refine h.congr (fun p c => by simp only [StandsIn, hemails]) fun hash c => ?_
  refine (hspec.messageIds _).trans ⟨fun h => h.1, fun hp => ⟨hp, ?_⟩⟩
  obtain ⟨p, ⟨r, hr, -, hth⟩, -⟩ := h.partition.named hp
  have hview : (view (leave t folder sequence .unmatched) (.thread c)).isSome :=
    view_thread_isSome.2 ⟨r, (hemails r).2 hr, hth⟩
  have := hl.entry_ne_destroyed hview
  rwa [hseq] at this

/-- **A batch keeps the threads.** -/
theorem Threaded.batch {before t : Tables} {mint : Nat → Minted} {batch : Batch}
    {state : Option Nat} (hi : Inv before) (h : Threaded sealer mail before)
    (hm : Minting mint batch.emails before) (hfrom : batch.From mail)
    (hw : writeBatch sealer mint before batch = .ok (t, state)) : Threaded sealer mail t := by
  have hpinned : Threaded sealer mail (pinned before ⟨batch.folder, batch.uidValidity⟩).1 :=
    h.ofRows (pinned_emails before _) (pinned_unseen before _).messageIds
  have hstart : BatchInv before batch.folder mint batch.emails _ _ :=
    .start hi hm ⟨batch.folder, batch.uidValidity⟩
  rcases writeBatch_stages hw with ⟨rfl, -⟩ | ⟨-, b, hloop, hstages⟩
  · exact hpinned
  obtain ⟨hend, hkept, -⟩ := foldlM_rest
    (P := fun rest b => BatchInv before batch.folder mint batch.emails rest b ∧
      Threaded sealer mail b.writing.tables ∧ b.waiting = [])
    (fun p rest b b' hb hf => ⟨hb.1.turn hm hf, hb.2.1.turn hb.1 hfrom hb.2.2 hf⟩)
    ⟨hstart, hpinned, unmatched_eq_nil hpinned.settled⟩ hloop
  have hsaved : Threaded sealer mail (save b.writing.tables batch.folder batch.advance).1 :=
    hkept.ofRows (save_emails _ _ _) (save_unseen _ _ _).messageIds
  rcases hstages with ⟨rfl, -⟩ | ⟨t₂, t₃, hledger, hlog, rfl⟩
  · exact hsaved
  obtain ⟨hlogged, hseq, -⟩ := hend.left hi
    (save b.writing.tables batch.folder batch.advance).2 hledger
  have hframe := (Ledger.logsUnder_write hledger).frame
  have hwritten : Threaded sealer mail t₂ :=
    hsaved.ofRows (by rw [hframe]; rfl) (by rw [hframe]; rfl)
  refine Threaded.ofRows (t := t₃) ?_ rfl rfl
  have hlast : Threaded sealer mail
      (if (save b.writing.tables batch.folder batch.advance).2 then leave t₂ batch.folder
        (nextSequence (save b.writing.tables batch.folder batch.advance).1).2 .unmatched
        else t₂) := by
    revert hlogged
    split
    · exact fun hlogged => hwritten.leaves hseq hlogged
    · exact fun _ => hwritten
  obtain ⟨changes, -, hlog⟩ := Except.bind_eq_ok.1 hlog
  obtain rfl := Except.ok.inj hlog
  exact hlast.ofRows rfl rfl

/-! ## Every run of arrivals -/

/-- The stores of an account that holds the messages of `mail`, from one without an email on: any
batches of these messages, each refused or not, between writes that touch neither the emails nor
the hashes. -/
inductive Arriving (sealer : Sealer) (mail : Mail) : Store → Prop
  | start {store : Store} (h : Reachable store) (he : store.tables.emails.rows = []) :
      Arriving sealer mail store
  | batch {store : Store} (h : Arriving sealer mail store) {mint : Nat → Minted} {batch : Batch}
      (hw : (Write.batch sealer mint batch).Fresh store.tables) (hfrom : batch.From mail) :
      Arriving sealer mail (store.run (.batch sealer mint batch)).1
  | other {store : Store} (h : Arriving sealer mail store) {write : Write}
      (hw : write.Fresh store.tables)
      (he : (store.run write).1.tables.emails = store.tables.emails)
      (hm : (store.run write).1.tables.messageIds = store.tables.messageIds) :
      Arriving sealer mail (store.run write).1

theorem Arriving.reachable {store : Store} (h : Arriving sealer mail store) : Reachable store := by
  induction h with
  | start h _ => exact h
  | batch _ hw _ ih => exact .run ih _ hw
  | other _ hw _ _ ih => exact .run ih _ hw

/-- **The threads of every such store.** -/
theorem Arriving.threaded {store : Store} (h : Arriving sealer mail store) :
    Threaded sealer mail store.tables := by
  induction h with
  | @start store h he =>
    have hnone : ∀ r, r ∉ store.tables.emails := fun r hr => by
      rw [Table.mem_def, he] at hr
      exact List.not_mem_nil hr
    refine ⟨.empty (fun p c hp => ?_) fun hash c hp => ?_, fun r hr => absurd hr (hnone r)⟩
    · obtain ⟨r, hr, -⟩ := hp
      exact hnone r hr
    · obtain ⟨r, hr, -⟩ := h.inv.hashes _ hp
      exact hnone r hr
  | @batch store h mint batch hw hfrom ih =>
    rcases store.run_cases (.batch sealer mint batch) with ⟨tables, ho, hr⟩ | ⟨error, hr⟩
    · rw [hr]
      obtain ⟨_, hb⟩ := map_fst_eq_ok ho
      exact ih.batch h.reachable.inv hw hfrom hb
    · rw [hr]
      exact ih
  | other _ _ he hm ih => exact ih.ofRows he hm

/-- The places that hold an email. -/
def Store.Stores (store : Store) (p : Place) : Prop := ∃ r ∈ store.tables.emails, r.place = p

/-- **Two emails have one thread exactly when a chain of stored emails that pairwise share a
message id connects them**, whatever the batches and the order they arrived in: two accounts that
store the same messages are divided into the same threads. -/
theorem Arriving.threads {store : Store} (h : Arriving sealer mail store) :
    (∀ r ∈ store.tables.emails, ∀ s ∈ store.tables.emails, r.threadId = s.threadId ↔
      Relation.EqvGen (Linked (NamedAt sealer mail) store.Stores) r.place s.place) ∧
    ∀ other, Arriving sealer mail other → (∀ p, other.Stores p ↔ store.Stores p) →
      ∀ r ∈ store.tables.emails, ∀ s ∈ store.tables.emails,
      ∀ r' ∈ other.tables.emails, ∀ s' ∈ other.tables.emails,
        r'.place = r.place → s'.place = s.place →
          (r'.threadId = s'.threadId ↔ r.threadId = s.threadId) := by
  have hchain : ∀ store : Store, Arriving sealer mail store →
      ∀ r ∈ store.tables.emails, ∀ s ∈ store.tables.emails, r.threadId = s.threadId ↔
        Relation.EqvGen (Linked (NamedAt sealer mail) store.Stores) r.place s.place := by
    intro store h r hr s hs
    have hstores : (fun p => ∃ c, StandsIn store.tables p c) = store.Stores := by
      funext p
      refine propext ⟨?_, ?_⟩
      · rintro ⟨c, r, hr, hp, -⟩
        exact ⟨r, hr, hp⟩
      · rintro ⟨r, hr, hp⟩
        exact ⟨r.threadId, r, hr, hp, rfl⟩
    rw [← hstores]
    exact h.threaded.partition.same_iff ⟨r, hr, rfl, rfl⟩ ⟨s, hs, rfl, rfl⟩
  refine ⟨hchain store h, fun other ho hsame r hr s hs r' hr' s' hs' hp hq => ?_⟩
  have hstores : other.Stores = store.Stores := funext fun p => propext (hsame p)
  rw [hchain store h r hr s hs, hchain other ho r' hr' s' hs', hp, hq, hstores]

/-- A message under its own id that names others. -/
def citing (uid : Nat) (own : String) (references : List String) : EmailFacts :=
  { plainFacts uid with personal := ⟨some [own], none, some references⟩ }

/-- Two messages that do not know each other and a third that cites both. -/
def citedMail : Mail := fun _ uid =>
  [citing 1 "a" [], citing 2 "b" [], citing 3 "c" ["a", "b"]].find? fun facts => facts.uid = uid

/-- The two arrive first, the third after them. -/
def firstCited : Store :=
  (oneFolder.run (.batch plainSealer (numberedMint 'e' 'd')
    ⟨"mINBOX", 1, [citing 1 "a" [], citing 2 "b" []], .up 3 2⟩)).1

def cited : Store :=
  (firstCited.run (.batch plainSealer (numberedMint 'f' 'g')
    ⟨"mINBOX", 1, [citing 3 "c" ["a", "b"]], .up 4 1⟩)).1

theorem cited_arriving : Arriving plainSealer citedMail cited := by
  refine .batch (.batch (.start oneFolder_reachable (by decide +kernel)) ?_ ?_) ?_ ?_
  · exact minting_numbered (by decide +kernel) (by decide +kernel) (by decide +kernel)
  · unfold Batch.From
    decide +kernel
  · exact minting_numbered (by decide +kernel) (by decide +kernel) (by decide +kernel)
  · unfold Batch.From
    decide +kernel

/-- The third message joined the threads of the first two. -/
theorem threads_cited :
    Relation.EqvGen (Linked (NamedAt plainSealer citedMail) cited.Stores) ("mINBOX", 1)
      ("mINBOX", 2) := by
  have hrows : ∃ r ∈ cited.tables.emails.rows, ∃ s ∈ cited.tables.emails.rows,
      r.place = ("mINBOX", 1) ∧ s.place = ("mINBOX", 2) ∧ r.threadId = s.threadId := by
    decide +kernel
  obtain ⟨r, hr, s, hs, hp, hq, hth⟩ := hrows
  have := (cited_arriving.threads.1 r hr s hs).1 hth
  rwa [hp, hq] at this

end Huliho
