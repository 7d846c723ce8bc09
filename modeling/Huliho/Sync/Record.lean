import Huliho.Sync.Walk

/-!
# What a batch records

How far a folder stands is one row of `bridge_sync`, and of everything a batch does only `save`
writes there. `applyBatch_sync` says what becomes of these rows, `save_down`, `save_up` and
`save_beside` what the one row then says.
-/

namespace Huliho.Sync

variable {t t' : Tables} {folder : MailboxId}

/-! ## The rows of progress -/

theorem pinned_sync (t : Tables) (standing : Standing) : (pinned t standing).1.sync = t.sync := by
  unfold pinned
  split
  · rfl
  · split <;> rfl

/-- **A batch on the rows of progress**: it answers no state and they stand, or a state and `save`
wrote there. -/
theorem writeBatch_sync {sealer : Sealer} {mint : Nat → Minted} {batch : Batch}
    {state : Option Nat} (h : writeBatch sealer mint t batch = .ok (t', state)) :
    (state = none ∧ t'.sync = t.sync) ∨ (state.isSome ∧ ∃ t₀ : Tables, t₀.sync = t.sync ∧
      t'.sync = (save t₀ batch.folder batch.advance).1.sync) := by
  rcases writeBatch_stages h with ⟨rfl, hstate⟩ | ⟨hstate, b, hloop, hstages⟩
  · exact .inl ⟨hstate, pinned_sync t _⟩
  refine .inr ⟨hstate, b.writing.tables, ?_, ?_⟩
  · rw [← pinned_sync t ⟨batch.folder, batch.uidValidity⟩]
    exact foldlM_keeps (P := fun b => b.writing.tables.sync =
      (pinned t ⟨batch.folder, batch.uidValidity⟩).1.sync) rfl
      (fun p _ b b' hb hf => (writeFacts_frame hf).2.trans hb) hloop
  rcases hstages with ⟨rfl, -⟩ | ⟨t₂, t₃, hledger, hlog, rfl⟩
  · rfl
  obtain ⟨changes, -, hlog⟩ := Except.bind_eq_ok.1 hlog
  obtain rfl := Except.ok.inj hlog
  have hwritten : t₂.sync = (save b.writing.tables batch.folder batch.advance).1.sync := by
    rw [(Ledger.logsUnder_write hledger).frame]
    rfl
  show (if _ then _ else t₂).sync = _
  split
  · rw [(leave_spec t₂ batch.folder _ .unmatched).frame]
    exact hwritten
  · exact hwritten

/-- **The same of the store's transaction.** -/
theorem applyBatch_sync (env : Env) (store : Store) (batch : Batch) :
    ((applyBatch env store batch).1.tables.sync = store.tables.sync ∧
        ∀ n, (applyBatch env store batch).2 ≠ .ok (some n)) ∨
      ((∃ n, (applyBatch env store batch).2 = .ok (some n)) ∧ ∃ t₀ : Tables,
        t₀.sync = store.tables.sync ∧ (applyBatch env store batch).1.tables.sync =
          (save t₀ batch.folder batch.advance).1.sync) := by
  unfold applyBatch
  split
  · exact .inl ⟨rfl, fun n h => by cases h⟩
  split
  · exact .inl ⟨rfl, fun n h => by cases h⟩
  cases hw : writeBatch env.sealer env.mint store.tables batch with
  | error error => exact .inl ⟨rfl, fun n h => by cases h⟩
  | ok written =>
    obtain ⟨t', state⟩ := written
    rcases writeBatch_sync hw with ⟨rfl, hsync⟩ | ⟨hstate, hsync⟩
    · exact .inl ⟨hsync, fun n h => by cases h⟩
    · obtain ⟨n, rfl⟩ := Option.isSome_iff_exists.1 hstate
      exact .inr ⟨⟨n, rfl⟩, hsync⟩

/-- A walk is a client of the store: a disk that works runs the batch as any other write. -/
theorem applyBatch_run {env : Env} (h : env.broken = false) (store : Store) (batch : Batch) :
    (applyBatch env store batch).1 = (store.run (.batch env.sealer env.mint batch)).1 := by
  unfold applyBatch Store.run
  rw [h]
  simp only [Bool.false_eq_true, if_false]
  split
  · rfl
  · simp only [Write.operation]
    cases writeBatch env.sealer env.mint store.tables batch <;> rfl

/-! ## What the row says -/

theorem save_down {lowest : Option Nat} {done : Bool} {synced : Synced} {r : SyncRecord}
    (hr : r ∈ (save t folder (.down lowest done synced)).1.sync) (hf : r.folderId = folder) :
    r.done = done ∧ (r.lowestSyncedUid = lowest ∨ (lowest = none ∧ ∃ r₀ ∈ t.sync,
      r₀.folderId = folder ∧ r.lowestSyncedUid = r₀.lowestSyncedUid)) := by
  have hkept : ∀ s : SyncRecord, s.Apart ⟨folder, lowest, done, synced.uidNext,
      synced.highestModseq, synced.messages⟩ → s.down folder lowest done synced = s :=
    fun s hs => if_neg hs
  have hhit : ∀ s : SyncRecord, ¬ s.Apart ⟨folder, lowest, done, synced.uidNext,
      synced.highestModseq, synced.messages⟩ → ¬ (s.down folder lowest done synced).Apart
        ⟨folder, lowest, done, synced.uidNext, synced.highestModseq, synced.messages⟩ :=
    fun s hs hc => hs (by rwa [SyncRecord.Apart, SyncRecord.down_folderId] at hc)
  rcases (Table.mem_upsert hkept hhit).1 hr with ⟨-, hapart⟩ | ⟨s, hs, hc, rfl⟩ | ⟨rfl, -⟩
  · exact absurd hf hapart
  · have hfolder : s.folderId = folder := not_not.1 hc
    simp only [SyncRecord.down, if_pos hfolder, true_and]
    cases lowest with
    | none => exact .inr ⟨rfl, s, hs, hfolder, rfl⟩
    | some low => exact .inl rfl
  · exact ⟨rfl, .inl rfl⟩

theorem save_up {uidNext arrived : Nat} {r : SyncRecord}
    (hr : r ∈ (save t folder (.up uidNext arrived)).1.sync) (hf : r.folderId = folder) :
    ∃ r₀ ∈ t.sync, r₀.folderId = folder ∧
      r.uidNext = some (max (r₀.uidNext.getD 0) uidNext) := by
  obtain ⟨s, hs, rfl⟩ := (Table.mem_revise (SyncRecord.up_apart folder uidNext arrived)).1 hr
  rw [SyncRecord.up_folderId] at hf
  refine ⟨s, hs, hf, ?_⟩
  rw [SyncRecord.up, if_pos hf]

theorem save_beside : (save t folder .beside).1.sync = t.sync := rfl

end Huliho.Sync
