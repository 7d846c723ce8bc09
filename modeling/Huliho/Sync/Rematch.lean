import Huliho.Lib.Claims
import Huliho.Store.Threading
import Huliho.Sync.Record

/-!
# A renumbered folder finds its rows again

The server renumbered a folder: its rows wait under negative UIDs, and the sync that follows matches
each message of the new listing to a waiting row of its identity. The waiting rows are a pool the
messages claim from (`Huliho.Claims`): `Rematching` is what holds of the folder behind any messages
of the listing, **`Matching.turn`** one message and **`Rematching.loop`** one batch.
-/

namespace Huliho.Sync

variable {origin t t' : Tables} {folder : MailboxId} {listed : List (Nat × Identity)}
variable {mints : EmailId → Prop}

/-! ## What of a row the matching reads -/

/-- A row of the folder by its id, its UID and its identity. -/
def Stands (t : Tables) (folder : MailboxId) (x : EmailId × Int × Identity) : Prop :=
  ∃ r ∈ t.emails, r.folderId = folder ∧ (r.id, r.uid, r.identity) = x

theorem Stands.unique {id : EmailId} {uid uid' : Int} {k k' : Identity}
    (h : Stands t folder (id, uid, k)) (h' : Stands t folder (id, uid', k')) :
    uid = uid' ∧ k = k' := by
  obtain ⟨r, hr, -, hx⟩ := h
  obtain ⟨r', hr', -, hx'⟩ := h'
  have hid : r.id = r'.id := (Prod.mk.inj hx).1.trans (Prod.mk.inj hx').1.symm
  obtain rfl := EmailRecord.eq_of_id hr hr' hid
  exact Prod.mk.inj (Prod.mk.inj (hx.symm.trans hx')).2

theorem mem_unmatched {e : Identity × EmailId} :
    e ∈ unmatched t folder ↔ ∃ uid < 0, Stands t folder (e.2, uid, e.1) := by
  rw [unmatched, List.mem_map]
  constructor
  · rintro ⟨r, hr, rfl⟩
    obtain ⟨hr, hwaits⟩ := List.mem_filter.1 hr
    obtain ⟨hf, hneg⟩ := of_decide_eq_true hwaits
    exact ⟨r.uid, hneg, r, hr, hf, rfl⟩
  · rintro ⟨uid, hneg, r, hr, hf, hx⟩
    obtain ⟨hid, hx⟩ := Prod.mk.inj hx
    obtain ⟨huid, hk⟩ := Prod.mk.inj hx
    refine ⟨r, List.mem_filter.2 ⟨hr, decide_eq_true ⟨hf, huid ▸ hneg⟩⟩, ?_⟩
    exact Prod.ext hk hid

theorem nodup_unmatched : (unmatched t folder).Nodup := by
  refine List.pairwise_map.2 ((t.emails.apart.filter _).imp fun hab heq => hab.1 ?_)
  exact (Prod.mk.inj heq).2

/-- A row that goes in under a UID of the server leaves what waits. -/
theorem mem_unmatched_missed {id : EmailId} {uid : Nat} {k : Identity}
    (hsame : ∀ x, Stands t' folder x ↔ Stands t folder x ∨ x = (id, (uid : Int), k))
    (e : Identity × EmailId) : e ∈ unmatched t' folder ↔ e ∈ unmatched t folder := by
  rw [mem_unmatched, mem_unmatched]
  simp only [hsame]
  constructor
  · rintro ⟨uid', hneg, hstands | heq⟩
    · exact ⟨uid', hneg, hstands⟩
    · have := (Prod.mk.inj (Prod.mk.inj heq).2).1
      omega
  · rintro ⟨uid', hneg, hstands⟩
    exact ⟨uid', hneg, .inl hstands⟩

/-- A row that takes a UID of the server waits no more. -/
theorem mem_unmatched_taken {id : EmailId} {uid : Nat} {k : Identity}
    (hsame : ∀ x, Stands t' folder x ↔ (Stands t folder x ∧ x.1 ≠ id) ∨ x = (id, (uid : Int), k))
    (e : Identity × EmailId) : e ∈ unmatched t' folder ↔ e ∈ unmatched t folder ∧ e.2 ≠ id := by
  rw [mem_unmatched, mem_unmatched]
  simp only [hsame]
  constructor
  · rintro ⟨uid', hneg, ⟨hstands, hne⟩ | heq⟩
    · exact ⟨⟨uid', hneg, hstands⟩, hne⟩
    · have := (Prod.mk.inj (Prod.mk.inj heq).2).1
      omega
  · rintro ⟨⟨uid', hneg, hstands⟩, hne⟩
    exact ⟨uid', hneg, .inl ⟨hstands, hne⟩⟩

/-- The rows of the folder that stand under UIDs of the server, and those that wait. -/
structure Rematching (origin : Tables) (folder : MailboxId) (listed : List (Nat × Identity))
    (mints : EmailId → Prop) (t : Tables) : Prop where
  claims : ∃ kept, Claims (unmatched origin folder) (listed.map Prod.snd) kept (unmatched t folder) ∧
    ∀ e ∈ kept, ∃ uid > 0, Stands t folder (e.2, uid, e.1)
  arrived : ∀ m ∈ listed, 0 < m.1 ∧ ∃ id, Stands t folder (id, m.1, m.2)
  rows : ∀ id uid k, Stands t folder (id, uid, k) → 0 < uid →
    (∃ m ∈ listed, uid = m.1) ∧ (id ∈ (unmatched origin folder).map Prod.snd ∨ mints id)

theorem Rematching.start (h : ∀ r ∈ t.emails, r.folderId = folder → r.uid ≤ 0) :
    Rematching t folder [] mints t := by
  refine ⟨⟨[], .refl _, nofun⟩, nofun, ?_⟩
  rintro id uid k ⟨r, hr, hf, hx⟩ huid
  have := h r hr hf
  have : r.uid = uid := (Prod.mk.inj (Prod.mk.inj hx).2).1
  omega

/-- Writes that leave these of the folder's rows as they are. -/
theorem Rematching.congr (h : Rematching origin folder listed mints t)
    (hsame : ∀ x, Stands t' folder x ↔ Stands t folder x) :
    Rematching origin folder listed mints t' := by
  obtain ⟨kept, hclaims, hkept⟩ := h.claims
  refine ⟨⟨kept, hclaims.perm ?_, ?_⟩, ?_, ?_⟩
  · refine (List.perm_ext_iff_of_nodup nodup_unmatched nodup_unmatched).2 fun e => ?_
    simp only [mem_unmatched, hsame]
  · simpa only [hsame] using hkept
  · simpa only [hsame] using h.arrived
  · simpa only [hsame] using h.rows

/-- **A message takes a waiting row of its identity.** -/
theorem Rematching.taken (h : Rematching origin folder listed mints t) {id : EmailId} {old : Int}
    {m : Nat × Identity} (hm : 0 < m.1) (hwaits : Stands t folder (id, old, m.2)) (hold : old < 0)
    (hsame : ∀ x, Stands t' folder x ↔ (Stands t folder x ∧ x.1 ≠ id) ∨ x = (id, (m.1 : Int), m.2)) :
    Rematching origin folder (listed ++ [m]) mints t' := by
  obtain ⟨kept, hclaims, hkept⟩ := h.claims
  have hentry : (m.2, id) ∈ unmatched t folder := mem_unmatched.2 ⟨old, hold, hwaits⟩
  have hstays : ∀ other uid k, Stands t folder (other, uid, k) → 0 < uid →
      Stands t' folder (other, uid, k) := by
    intro other uid k hstands huid
    refine (hsame _).2 (.inl ⟨hstands, ?_⟩)
    rintro rfl
    have := (hstands.unique hwaits).1
    omega
  refine ⟨⟨kept ++ [(m.2, id)], ?_, ?_⟩, ?_, ?_⟩
  · rw [List.map_append, List.map_singleton]
    have hleft := mem_unmatched_taken hsame
    refine hclaims.taken ((List.perm_ext_iff_of_nodup nodup_unmatched
      (List.nodup_cons.2 ⟨fun hstill => ((hleft _).1 hstill).2 rfl, nodup_unmatched⟩)).2 fun e => ?_)
    rw [List.mem_cons, hleft]
    constructor
    · intro he
      by_cases hid : e.2 = id
      · obtain ⟨uid, -, hstands⟩ := mem_unmatched.1 he
        rw [hid] at hstands
        exact .inl (Prod.ext (hstands.unique hwaits).2 hid)
      · exact .inr ⟨he, hid⟩
    · rintro (rfl | ⟨he, -⟩)
      · exact hentry
      · exact he
  · intro e he
    rcases List.mem_append.1 he with he | he
    · obtain ⟨uid, huid, hstands⟩ := hkept e he
      exact ⟨uid, huid, hstays _ _ _ hstands huid⟩
    · obtain rfl := List.mem_singleton.1 he
      exact ⟨m.1, by omega, (hsame _).2 (.inr rfl)⟩
  · intro n hn
    rcases List.mem_append.1 hn with hn | hn
    · obtain ⟨hpos, other, hstands⟩ := h.arrived n hn
      exact ⟨hpos, other, hstays _ _ _ hstands (by omega)⟩
    · obtain rfl := List.mem_singleton.1 hn
      exact ⟨hm, id, (hsame _).2 (.inr rfl)⟩
  · intro other uid k hstands huid
    rcases (hsame _).1 hstands with ⟨hstands, -⟩ | heq
    · obtain ⟨⟨n, hn, heq⟩, hid⟩ := h.rows other uid k hstands huid
      exact ⟨⟨n, List.mem_append_left _ hn, heq⟩, hid⟩
    · obtain ⟨rfl, hplace⟩ := Prod.mk.inj heq
      refine ⟨⟨m, List.mem_append_right _ List.mem_cons_self, (Prod.mk.inj hplace).1⟩, .inl ?_⟩
      refine List.mem_map.2 ⟨(m.2, other), ?_, rfl⟩
      exact hclaims.split.mem_iff.2 (List.mem_append_right _ hentry)

/-- **A message no row waits for goes in under a new id.** -/
theorem Rematching.missed (h : Rematching origin folder listed mints t) {id : EmailId}
    {m : Nat × Identity} (hm : 0 < m.1) (hnone : ∀ e ∈ unmatched t folder, e.1 ≠ m.2)
    (hmints : mints id)
    (hsame : ∀ x, Stands t' folder x ↔ Stands t folder x ∨ x = (id, (m.1 : Int), m.2)) :
    Rematching origin folder (listed ++ [m]) mints t' := by
  obtain ⟨kept, hclaims, hkept⟩ := h.claims
  refine ⟨⟨kept, ?_, ?_⟩, ?_, ?_⟩
  · rw [List.map_append, List.map_singleton]
    refine (hclaims.missed hnone).perm ?_
    refine (List.perm_ext_iff_of_nodup nodup_unmatched nodup_unmatched).2 fun e => ?_
    exact (mem_unmatched_missed hsame e).symm
  · intro e he
    obtain ⟨uid, huid, hstands⟩ := hkept e he
    exact ⟨uid, huid, (hsame _).2 (.inl hstands)⟩
  · intro n hn
    rcases List.mem_append.1 hn with hn | hn
    · obtain ⟨hpos, other, hstands⟩ := h.arrived n hn
      exact ⟨hpos, other, (hsame _).2 (.inl hstands)⟩
    · obtain rfl := List.mem_singleton.1 hn
      exact ⟨hm, id, (hsame _).2 (.inr rfl)⟩
  · intro other uid k hstands huid
    rcases (hsame _).1 hstands with hstands | heq
    · obtain ⟨⟨n, hn, heq⟩, hid⟩ := h.rows other uid k hstands huid
      exact ⟨⟨n, List.mem_append_left _ hn, heq⟩, hid⟩
    · obtain ⟨rfl, hplace⟩ := Prod.mk.inj heq
      exact ⟨⟨m, List.mem_append_right _ List.mem_cons_self, (Prod.mk.inj hplace).1⟩, .inr hmints⟩

/-! ## One message -/

theorem popWaiting_none {waiting : List (Identity × EmailId)} {k : Identity}
    (h : (popWaiting waiting k).1 = none) :
    (∀ e ∈ waiting, e.1 ≠ k) ∧ (popWaiting waiting k).2 = waiting := by
  unfold popWaiting at h ⊢
  split at h
  · cases h
  · next hnone =>
    refine ⟨fun e he => ?_, rfl⟩
    simpa using List.find?_eq_none.1 hnone e (List.mem_reverse.2 he)

theorem popWaiting_some {waiting : List (Identity × EmailId)} {k : Identity} {id : EmailId}
    (h : (popWaiting waiting k).1 = some id) : (k, id) ∈ waiting ∧
      (popWaiting waiting k).2 = waiting.filter fun e => e.2 ≠ id := by
  unfold popWaiting at h ⊢
  split at h
  · next j other hfound =>
    obtain rfl := Option.some.inj h
    have hkey : j = k := by simpa using List.find?_some hfound
    exact ⟨hkey ▸ List.mem_reverse.1 (List.mem_of_find?_eq_some hfound), rfl⟩
  · cases h

/-- What stands in the folder after a new row went in. -/
theorem stands_insert {w : Writing} {hashes : List Bytes} {generated : ThreadId}
    {facts : EmailFacts} {id : EmailId} {hash : Option Bytes} {sealed : Bytes}
    (hi : insert (join w hashes generated).1.tables facts id folder hash sealed
      (join w hashes generated).2 = .ok t') (x : EmailId × Int × Identity) :
    Stands t' folder x ↔ Stands w.tables folder x ∨
      x = (id, (facts.uid : Int), hash, facts.receivedAt, facts.size) := by
  obtain ⟨losers, hjoin⟩ := join_all w hashes generated
  have hrows := (insert_spec hi).1
  constructor
  · rintro ⟨r, hr, hf, hx⟩
    rcases (hrows r).1 hr with hr | rfl
    · obtain ⟨s, hs, rfl⟩ := (hjoin.emails r).1 hr
      rw [EmailRecord.rethreads_id, EmailRecord.rethreads_uid,
        EmailRecord.rethreads_identity] at hx
      rw [EmailRecord.rethreads_folderId] at hf
      exact .inl ⟨s, hs, hf, hx⟩
    · exact .inr hx.symm
  · rintro (⟨s, hs, hf, hx⟩ | rfl)
    · refine ⟨_, (hrows _).2 (.inl ((hjoin.emails _).2 ⟨s, hs, rfl⟩)), ?_, ?_⟩
      · rw [EmailRecord.rethreads_folderId, hf]
      · rw [EmailRecord.rethreads_id, EmailRecord.rethreads_uid,
          EmailRecord.rethreads_identity, hx]
    · exact ⟨_, (hrows _).2 (.inr rfl), rfl, rfl⟩

/-- What stands in the folder after a waiting row took its new UID. -/
theorem stands_rewrite {facts : EmailFacts} {id : EmailId} {sealed : Bytes} {old : Int}
    {k : Identity} (hwaits : Stands t folder (id, old, k))
    (hr : rewrite t facts id sealed = .ok t') (x : EmailId × Int × Identity) :
    Stands t' folder x ↔ (Stands t folder x ∧ x.1 ≠ id) ∨ x = (id, (facts.uid : Int), k) := by
  simp only [rewrite, Except.bind_eq_ok, constrained_eq_ok, pure, Except.pure,
    Except.ok.injEq] at hr
  obtain ⟨rows, hrows, rfl⟩ := hr
  have hmem : ∀ r, r ∈ rows ↔ ∃ s ∈ t.emails, s.matched facts id sealed = r :=
    fun r => Table.mem_update? hrows
  obtain ⟨r₀, hr₀, hf₀, hx₀⟩ := hwaits
  obtain ⟨hid₀, hx₀⟩ := Prod.mk.inj hx₀
  obtain ⟨-, hk₀⟩ := Prod.mk.inj hx₀
  constructor
  · rintro ⟨r, hr, hf, rfl⟩
    obtain ⟨s, hs, rfl⟩ := (hmem r).1 hr
    unfold EmailRecord.matched at hf ⊢
    by_cases hid : s.id = id
    · obtain rfl := EmailRecord.eq_of_id hs hr₀ (hid.trans hid₀.symm)
      rw [if_pos hid]
      exact .inr (Prod.ext hid (Prod.ext rfl hk₀))
    · rw [if_neg hid] at hf ⊢
      exact .inl ⟨⟨s, hs, hf, rfl⟩, hid⟩
  · rintro (⟨⟨s, hs, hf, rfl⟩, hid⟩ | rfl)
    · exact ⟨s, (hmem s).2 ⟨s, hs, if_neg hid⟩, hf, rfl⟩
    · refine ⟨_, (hmem _).2 ⟨r₀, hr₀, rfl⟩, ?_, ?_⟩
      · rw [EmailRecord.matched, if_pos hid₀]
        exact hf₀
      · rw [EmailRecord.matched, if_pos hid₀]
        exact Prod.ext hid₀ (Prod.ext rfl hk₀)

/-- A UID some row of the folder holds. -/
theorem stands_of_holds {uid : Nat} (h : holds t folder uid = true) :
    ∃ id k, Stands t folder (id, (uid : Int), k) := by
  obtain ⟨r, hr⟩ := Option.isSome_iff_exists.1 h
  obtain ⟨hr, hf, huid⟩ := Table.mem_of_find? hr
  exact ⟨r.id, r.identity, r, hr, hf, Prod.ext rfl (Prod.ext huid rfl)⟩

section Batch

variable {sealer : Sealer} {mint : Nat → Minted} {labels : Labels} {b b' : Batching}
variable {facts : EmailFacts} {n : Nat}

/-- The loop of a batch carries the rows that wait. -/
structure Matching (origin : Tables) (folder : MailboxId) (listed : List (Nat × Identity))
    (mints : EmailId → Prop) (b : Batching) : Prop where
  rows : Rematching origin folder listed mints b.writing.tables
  waiting : ∀ e, e ∈ b.waiting ↔ e ∈ unmatched b.writing.tables folder

/-- **One message of the listing** finds a row that waits for it, or it gets a new one. -/
theorem Matching.turn (h : Matching origin folder listed mints b) (hplain : facts.gmail = none)
    (huid : 0 < facts.uid) (hnew : ∀ m ∈ listed, m.1 ≠ facts.uid)
    (hmints : mints (mint n).emailId)
    (hf : writeFacts sealer mint folder labels b (facts, n) = .ok b') :
    Matching origin folder (listed ++ [(facts.uid, facts.identity sealer)]) mints b' := by
  simp only [writeFacts, hplain] at hf
  split at hf
  · next hholds =>
    -- only messages listed before stand under a UID of the server
    obtain ⟨id, k, hstands⟩ := stands_of_holds hholds
    obtain ⟨⟨m, hm, heq⟩, -⟩ := h.rows.rows _ _ _ hstands (by omega)
    exact absurd (by omega) (hnew m hm)
  · rw [← EmailFacts.identity] at hf
    cases hpop : (popWaiting b.waiting (facts.identity sealer)).1 with
    | none =>
      obtain ⟨hnone, hkept⟩ := popWaiting_none hpop
      simp only [hpop, Except.bind_eq_ok, pure, Except.pure, Except.ok.injEq] at hf
      obtain ⟨sealed, -, t, hi, rfl⟩ := hf
      have hstands := stands_insert hi
      refine ⟨h.rows.missed huid (fun e he => hnone e ((h.waiting e).2 he)) hmints hstands,
        fun e => ?_⟩
      rw [mem_unmatched_missed hstands, ← h.waiting, hkept]
    | some id =>
      obtain ⟨hentry, hkept⟩ := popWaiting_some hpop
      simp only [hpop, Except.bind_eq_ok, pure, Except.pure, Except.ok.injEq] at hf
      obtain ⟨sealed, -, t, hr, rfl⟩ := hf
      obtain ⟨old, hold, hwaits⟩ := mem_unmatched.1 ((h.waiting _).1 hentry)
      have hstands := stands_rewrite hwaits hr
      refine ⟨h.rows.taken huid hwaits hold hstands, fun e => ?_⟩
      rw [mem_unmatched_taken hstands, ← h.waiting, hkept, List.mem_filter, decide_eq_true_eq]

/-- The messages of a batch, each by its UID and its identity. -/
def listsOf (sealer : Sealer) (batch : Batch) : List (Nat × Identity) :=
  batch.emails.map fun facts => (facts.uid, facts.identity sealer)

variable {batch : Batch} {state : Option Nat}

/-- The rows a batch leaves: those of its loop, less the ones that wait where it finishes. -/
theorem writeBatch_rows (hstands : (pinned t ⟨batch.folder, batch.uidValidity⟩).2 = true)
    (hw : writeBatch sealer mint t batch = .ok (t', state)) :
    ∃ b, batch.emails.zipIdx.foldlM (writeFacts sealer mint batch.folder
        (Labels.read (pinned t ⟨batch.folder, batch.uidValidity⟩).1 batch.folder))
        ⟨⟨(pinned t ⟨batch.folder, batch.uidValidity⟩).1, Table.empty⟩,
          unmatched (pinned t ⟨batch.folder, batch.uidValidity⟩).1 batch.folder⟩ = .ok b ∧
      b.writing.tables.sync = t.sync ∧ ∀ r, r ∈ t'.emails ↔ r ∈ b.writing.tables.emails ∧
        ((save b.writing.tables batch.folder batch.advance).2 = true →
          ¬ Leaves batch.folder .unmatched r) := by
  rcases writeBatch_stages hw with ⟨-, rfl⟩ | ⟨-, b, hloop, hstages⟩
  · -- a folder that stands answers a state
    simp only [writeBatch, hstands, Bool.not_true, Bool.false_eq_true, if_false,
      Except.bind_eq_ok] at hw
    obtain ⟨b, -, hw⟩ := hw
    split at hw
    · cases hw
    · simp only [Except.bind_eq_ok, pure, Except.pure, Except.ok.injEq, Prod.mk.injEq] at hw
      obtain ⟨_, -, _, -, -, hstate⟩ := hw
      cases hstate
  have hsync : b.writing.tables.sync = t.sync := by
    rw [← pinned_sync t ⟨batch.folder, batch.uidValidity⟩]
    exact foldlM_keeps (P := fun b => b.writing.tables.sync =
      (pinned t ⟨batch.folder, batch.uidValidity⟩).1.sync) rfl
      (fun p _ b b' hb hf => (writeFacts_frame hf).2.trans hb) hloop
  refine ⟨b, hloop, hsync, fun r => ?_⟩
  rcases hstages with ⟨rfl, -, hunfinished⟩ | ⟨t₂, t₃, hledger, hlog, rfl⟩
  · rw [save_emails, hunfinished]
    simp
  · have hwritten : t₂.emails = b.writing.tables.emails := by
      rw [(Ledger.logsUnder_write hledger).frame]
      exact save_emails _ _ _
    show r ∈ t₃.emails ↔ _
    rw [log_frame hlog, ← hwritten]
    cases hfinished : (save b.writing.tables batch.folder batch.advance).2 with
    | false => simp
    | true =>
      rw [if_pos rfl, (leave_spec t₂ batch.folder _ .unmatched).emails]
      simp

/-- A message by its UID and its identity, as the loop reads it with its turn. -/
def listing (sealer : Sealer) (p : EmailFacts × Nat) : Nat × Identity :=
  (p.1.uid, p.1.identity sealer)

theorem listsOf_eq : listsOf sealer batch = batch.emails.zipIdx.map (listing sealer) := by
  have hfst := List.zipIdx_map_fst 0 batch.emails
  rw [listsOf, ← hfst, List.map_map, hfst]
  rfl

/-- **A batch of the listing** matches its messages, whatever else its loop notes. -/
theorem Rematching.loop (h : Rematching origin batch.folder listed mints t)
    (hplain : ∀ facts ∈ batch.emails, facts.gmail = none ∧ 0 < facts.uid)
    (hapart : ((listed ++ listsOf sealer batch).map Prod.fst).Nodup)
    (hmints : ∀ n, mints (mint n).emailId)
    (hloop : batch.emails.zipIdx.foldlM (writeFacts sealer mint batch.folder labels)
      ⟨⟨(pinned t ⟨batch.folder, batch.uidValidity⟩).1, Table.empty⟩,
        unmatched (pinned t ⟨batch.folder, batch.uidValidity⟩).1 batch.folder⟩ = .ok b) :
    Rematching origin batch.folder (listed ++ listsOf sealer batch) mints b.writing.tables := by
  have hpinned : Rematching origin batch.folder listed mints
      (pinned t ⟨batch.folder, batch.uidValidity⟩).1 :=
    h.congr fun x => by rw [Stands, Stands, pinned_emails]
  obtain ⟨done, hdone, hend⟩ := foldlM_rest
    (P := fun rest b => ∃ done, batch.emails.zipIdx = done ++ rest ∧
      Matching origin batch.folder (listed ++ done.map (listing sealer)) mints b)
    (fun p rest b b' hb hf => by
      obtain ⟨done, hdone, hmatching⟩ := hb
      have hzip : p ∈ batch.emails.zipIdx := by
        rw [hdone]
        exact List.mem_append_right _ List.mem_cons_self
      have hmem : p.1 ∈ batch.emails := List.fst_mem_of_mem_zipIdx hzip
      have hnew : ∀ m ∈ listed ++ done.map (listing sealer), m.1 ≠ p.1.uid := by
        intro m hm heq
        have hsplit : listed ++ listsOf sealer batch =
            (listed ++ done.map (listing sealer)) ++ (p :: rest).map (listing sealer) := by
          rw [listsOf_eq, hdone, List.map_append, List.append_assoc]
        rw [hsplit, List.map_append] at hapart
        exact (List.nodup_append.1 hapart).2.2 _ (List.mem_map_of_mem hm) p.1.uid
          List.mem_cons_self heq
      refine ⟨done ++ [p], by rw [hdone, List.append_assoc, List.singleton_append], ?_⟩
      rw [List.map_append, ← List.append_assoc, List.map_singleton]
      exact hmatching.turn (hplain _ hmem).1 (hplain _ hmem).2 hnew (hmints p.2) hf)
    ⟨[], rfl, by rw [List.map_nil, List.append_nil]; exact hpinned, fun _ => Iff.rfl⟩ hloop
  rw [List.append_nil] at hdone
  rw [listsOf_eq, hdone]
  exact hend.rows

end Batch

end Huliho.Sync
