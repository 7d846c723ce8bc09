import Huliho.Cache.Jobs

/-!
# A run of the cache

Every operation on an account runs under the account's lock, so a run is a list of `Step`s, each
whole. What the log holds after an operation other than a change **follows** the log before: a row
of it is one of the rows before, refitted, sent or released (`Store.after_follows`). Only
`mutateMany` gives out numbers.
-/

namespace Huliho.Cache

/-- A row as an operation may leave it: the same change of the same email under the same number,
refitted, sent or released. -/
structure PendingRow.Follows (row held : PendingRow) : Prop where
  seq : row.seq = held.seq
  id : row.id = held.id
  threadId : row.threadId = held.threadId
  destroy : row.destroy = held.destroy
  lease : row.lease = held.lease
  patch : held.destroy = false → row.patch = held.patch
  released : row.held = true → held.held = true

/-- A row as a landing may leave it: refitted, as held and as sent as before. -/
structure PendingRow.Refits (row held : PendingRow) : Prop extends row.Follows held where
  kept : row.held = held.held
  sent : row.sentAt = held.sentAt

namespace PendingRow

variable {row held older : PendingRow} {s : MemberState} {rows : List PendingRow}

theorem Follows.refl (row : PendingRow) : row.Follows row :=
  ⟨rfl, rfl, rfl, rfl, rfl, fun _ => rfl, fun h => h⟩

theorem Follows.trans (h : row.Follows held) (h' : held.Follows older) : row.Follows older where
  seq := h.seq.trans h'.seq
  id := h.id.trans h'.id
  threadId := h.threadId.trans h'.threadId
  destroy := h.destroy.trans h'.destroy
  lease := h.lease.trans h'.lease
  patch := fun hd => (h.patch (h'.destroy.trans hd)).trans (h'.patch hd)
  released := fun hr => h'.released (h.released hr)

theorem refits_fitted : (row.fitted s).Refits row where
  seq := rfl
  id := rfl
  threadId := rfl
  destroy := rfl
  lease := rfl
  patch := fun hd => by simp [fitted, patchAt, hd]
  released := fun h => h
  kept := rfl
  sent := rfl

theorem Refits.refl (row : PendingRow) : row.Refits row := ⟨Follows.refl row, rfl, rfl⟩

theorem Refits.trans (h : row.Refits held) (h' : held.Refits older) : row.Refits older :=
  ⟨h.toFollows.trans h'.toFollows, h.kept.trans h'.kept, h.sent.trans h'.sent⟩

end PendingRow

/-- A replay changes no row but in how it fits. -/
theorem refits_replayed {s : MemberState} {rows : List PendingRow} {row : PendingRow}
    (h : row ∈ (replayed s rows).2) :
    ∃ held ∈ rows, row.Refits held := by
  induction rows generalizing s with
  | nil => exact absurd h List.not_mem_nil
  | cons first rows ih =>
    rw [replayed_cons] at h
    rcases List.mem_cons.1 h with rfl | h
    · exact ⟨first, List.mem_cons_self, PendingRow.refits_fitted⟩
    · obtain ⟨held, hm, hf⟩ := ih h
      exact ⟨held, List.mem_cons_of_mem _ hm, hf⟩

/-- Each row of a log is a row of the log before, as an operation may leave it. -/
def Log.Follows (log before : Log) : Prop := ∀ row ∈ log, ∃ held ∈ before, row.Follows held

theorem Log.Follows.refl (log : Log) : log.Follows log :=
  fun row h => ⟨row, h, PendingRow.Follows.refl row⟩

theorem Log.Follows.trans {log mid before : Log} (h : log.Follows mid) (h' : mid.Follows before) :
    log.Follows before := by
  intro row hr
  obtain ⟨held, hm, hf⟩ := h row hr
  obtain ⟨older, ho, hf'⟩ := h' held hm
  exact ⟨older, ho, hf.trans hf'⟩

section Commit

variable {store : Store} {batch : Batch} {row : PendingRow}

/-- A row after a batch came with it or stood before. -/
theorem of_mem_commit (h : row ∈ (store.commit batch).pending) :
    row ∈ batch.pending.put ∨ (row ∈ store.pending ∧ row.seq ∉ batch.pending.remove) := by
  rcases Sequence.of_mem_putAll h with h | h
  · exact .inl h
  · rw [Sequence.mem_remove] at h
    refine .inr ⟨?_, h.2⟩
    have hin := h.1
    split at hin
    · exact absurd hin List.not_mem_nil
    · exact hin

theorem commit_follows
    (h : ∀ row ∈ batch.pending.put, ∃ held ∈ store.pending, row.Follows held) :
    (store.commit batch).pending.Follows store.pending := by
  intro row hr
  rcases of_mem_commit hr with hr | hr
  · exact h row hr
  · exact ⟨row, hr.1, PendingRow.Follows.refl row⟩

end Commit

/-! ## Landings -/

theorem mem_of_mem_refitted {before after : List PendingRow} {row : PendingRow}
    (h : row ∈ refitted before after) : row ∈ after := (List.mem_filter.1 h).1

theorem mem_ofEmail {rows : List PendingRow} {id : EmailId} {row : PendingRow} :
    row ∈ ofEmail rows id ↔ row ∈ rows ∧ row.id = id := by
  rw [ofEmail, List.mem_filter, decide_eq_true_eq]

section Landing

variable {rows : List PendingRow} {row : PendingRow}

/-- The rows a landing refits are rows of the log. -/
theorem refits_refit {s : MemberState} {id : EmailId}
    (h : row ∈ refitted (ofEmail rows id) (replayed s (ofEmail rows id)).2) :
    ∃ held ∈ rows, row.Refits held := by
  obtain ⟨held, hm, hf⟩ := refits_replayed (mem_of_mem_refitted h)
  exact ⟨held, (mem_ofEmail.1 hm).1, hf⟩

theorem refits_relaidHeader {header : EmailHeader} (h : row ∈ (relaidHeader rows header).2) :
    ∃ held ∈ rows, row.Refits held := by
  simp only [relaidHeader] at h
  split at h
  · exact absurd h List.not_mem_nil
  · exact refits_refit h

theorem refits_relaidMember {headed : EmailId → Bool} {id : EmailId} {member : MemberState}
    (h : row ∈ (relaidMember rows headed id member).2) :
    ∃ held ∈ rows, row.Refits held := by
  simp only [relaidMember] at h
  split at h
  · exact absurd h List.not_mem_nil
  · split at h
    · exact absurd h List.not_mem_nil
    · exact refits_refit h

/-- What follows a substituted row follows the row it stands for. -/
theorem refits_substituted {fitted : List PendingRow}
    (hf : ∀ row ∈ fitted, ∃ held ∈ rows, row.Refits held) (h : row ∈ substituted rows fitted) :
    ∃ held ∈ rows, row.Refits held := by
  obtain ⟨held, hm, rfl⟩ := List.mem_map.1 h
  rcases Sequence.latest_mem PendingRow.seq fitted held with hl | hl
  · exact hf _ hl
  · rw [hl.1]
    exact ⟨held, hm, PendingRow.Refits.refl held⟩

/-- **The rows a landing fits follow the log**: none is released, sent or new. -/
theorem refits_overlaid {store : Store} {batch : Batch} {kind : LandingKind}
    (h : row ∈ (overlaid store batch kind rows).fitted) :
    ∃ held ∈ rows, row.Refits held := by
  have hheads : ∀ row ∈ (relaidHeaders batch.emails.put rows).2,
      ∃ held ∈ rows, row.Refits held := by
    intro row h
    obtain ⟨header, -, h⟩ := List.mem_flatMap.1 h
    exact refits_relaidHeader h
  simp only [overlaid] at h
  rcases List.mem_append.1 h with h | h
  · exact hheads row h
  · simp only [relaidThreads] at h
    obtain ⟨thread, -, h⟩ := List.mem_flatMap.1 h
    obtain ⟨member, -, h⟩ := List.mem_flatMap.1 h
    obtain ⟨mid, hm, hf⟩ := refits_relaidMember h
    obtain ⟨held, hm', hf'⟩ := refits_substituted hheads hm
    exact ⟨held, hm', hf.trans hf'⟩

end Landing

section Landings

variable {store : Store} {batch : Batch}

theorem overlaid_pending {kind : LandingKind} {rows : List PendingRow} :
    (overlaid store batch kind rows).batch.pending.put =
      batch.pending.put ++ (overlaid store batch kind rows).fitted := rfl

theorem landAs_follows {kind : LandingKind} (h : batch.pending.put = []) :
    (landAs store batch kind).1.pending.Follows store.pending := by
  simp only [landAs]
  split
  · exact commit_follows (by simp [h])
  · refine commit_follows fun row hr => ?_
    rw [overlaid_pending, h, List.nil_append] at hr
    obtain ⟨held, hm, hf⟩ := refits_overlaid hr
    exact ⟨held, hm, hf.toFollows⟩

theorem land_follows (h : batch.pending.put = []) :
    (land store batch).pending.Follows store.pending := landAs_follows h

theorem landRound_follows (h : batch.pending.put = []) :
    (landRound store batch).1.pending.Follows store.pending := landAs_follows h

end Landings

/-! ## The other operations -/

section Operations

variable {store : Store}

/-- A release changes the picked rows in place. -/
theorem mem_releaseWhere {picked : PendingRow → Bool} {row : PendingRow} :
    row ∈ (releaseWhere store picked).1.pending ↔ ∃ held ∈ store.pending,
      (if held.held && picked held then { held with held := false } else held) = row := by
  have hall := Sequence.putAll_filter (s := store.pending) (fun row => row.held && picked row)
    (f := fun row => { row with held := false }) fun _ => rfl
  have hrevised : row ∈ store.pending.putAll ((store.pending.rows.filter fun row =>
      row.held && picked row).map fun row => { row with held := false }) ↔
      ∃ held ∈ store.pending,
        (if held.held && picked held then { held with held := false } else held) = row := by
    rw [hall]
    exact Sequence.mem_revise
  rw [← hrevised]
  simp only [releaseWhere]
  split
  · rename_i hnone
    rw [hnone, Sequence.putAll_nil]
  · simp [Store.commit, Batch.clears]

theorem releaseWhere_follows {picked : PendingRow → Bool} :
    (releaseWhere store picked).1.pending.Follows store.pending := by
  intro row hr
  obtain ⟨held, hm, rfl⟩ := mem_releaseWhere.1 hr
  refine ⟨held, hm, ?_⟩
  split
  · exact ⟨rfl, rfl, rfl, rfl, rfl, fun _ => rfl, fun h => nomatch h⟩
  · exact PendingRow.Follows.refl held

/-- What stays of an email some of whose rows leave. -/
theorem refits_backed {log : Log} {leaving : List Nat} {id : EmailId} {email : KnownEmail}
    {row : PendingRow} (h : row ∈ (backed log leaving id email).2) :
    ∃ held ∈ log, row.Refits held ∧ held.id = id ∧ held.seq ∉ leaving := by
  obtain ⟨held, hm, hf⟩ := refits_replayed h
  obtain ⟨hm, hl⟩ := List.mem_filter.1 hm
  obtain ⟨hm, hid⟩ := List.mem_filter.1 hm
  exact ⟨held, hm, hf, of_decide_eq_true hid, of_decide_eq_true hl⟩

/-- **What is left once rows were taken back**: the other rows, refitted. -/
theorem takeBack_refits {leaving : List Nat} {row : PendingRow}
    (h : row ∈ (takeBack store leaving).pending) :
    ∃ held ∈ store.pending, row.Refits held ∧ held.seq ∉ leaving := by
  simp only [takeBack] at h
  split at h
  · rename_i hnone
    refine ⟨row, h, PendingRow.Refits.refl row, fun hl => ?_⟩
    exact List.filter_eq_nil_iff.1 hnone row h (decide_eq_true hl)
  · rcases of_mem_commit h with h | h
    · obtain ⟨email, -, h⟩ := List.mem_flatMap.1 h
      obtain ⟨held, hm, hf, -, hl⟩ := refits_backed h
      exact ⟨held, hm, hf, hl⟩
    · exact ⟨row, h.1, PendingRow.Refits.refl row, h.2⟩

theorem takeBack_follows {leaving : List Nat} :
    (takeBack store leaving).pending.Follows store.pending := by
  intro row hr
  obtain ⟨held, hm, hf, -⟩ := takeBack_refits hr
  exact ⟨held, hm, hf.toFollows⟩

/-- Every row that does not leave stays, refitted. -/
theorem takeBack_stays {leaving : List Nat} {held : PendingRow} (h : held ∈ store.pending)
    (hl : held.seq ∉ leaving) : ∃ row ∈ (takeBack store leaving).pending, row.Refits held := by
  obtain ⟨row, hr, hseq⟩ : ∃ row ∈ (takeBack store leaving).pending, row.seq = held.seq := by
    simp only [takeBack]
    split
    · exact ⟨held, h, rfl⟩
    · refine Sequence.exists_mem_putAll (Sequence.mem_remove.2 ⟨?_, hl⟩)
      simpa [Batch.clears, restate] using h
  obtain ⟨older, hm, hf, -⟩ := takeBack_refits hr
  exact ⟨row, hr, store.pending.unique hm h (hf.seq.symm.trans hseq) ▸ hf⟩

theorem dropHeld_follows {seqs : List Nat} :
    (dropHeld store seqs).pending.Follows store.pending := takeBack_follows

theorem dropCanceled_follows : (dropCanceled store).pending.Follows store.pending := by
  simp only [dropCanceled]
  split
  · exact Log.Follows.refl _
  · exact commit_follows (by simp)

theorem settle_follows {sent : List PendingRow} {verdict : EmailId → Verdict} :
    (settle store sent verdict).pending.Follows store.pending := by
  have hgone : ∀ ids named, (goneOf (takeBack store (takenBy sent verdict)) ids named).pending.put =
      [] := fun _ _ => rfl
  simp only [settle]
  refine (commit_follows ?_).trans takeBack_follows
  simp

/-- The rows a round marks as sent. -/
theorem follows_sent {limit now : Nat} {row : PendingRow} (h : row ∈ sentRows store limit now) :
    ∃ held ∈ store.pending, row = { held with sentAt := some now } ∧ held.held = false := by
  obtain ⟨held, hm, rfl⟩ := List.mem_map.1 h
  have hready := (List.mem_filter.1 (List.mem_filter.1 hm).1)
  exact ⟨held, hready.1, rfl, by simpa using hready.2⟩

theorem marked_follows {limit now : Nat} :
    (marked store limit now).pending.Follows store.pending := by
  refine commit_follows fun row hr => ?_
  obtain ⟨held, hm, rfl, -⟩ := follows_sent hr
  exact ⟨held, hm, rfl, rfl, rfl, rfl, rfl, fun _ => rfl, fun h => h⟩

theorem flushPending_follows {turn : FlushTurn} :
    (flushPending store turn).1.pending.Follows store.pending := by
  rcases flushPending_cases store turn with h | ⟨limit, -, -, ⟨-, h⟩ | ⟨-, h⟩⟩
  · rw [h]
    exact dropCanceled_follows
  · rw [h]
    exact marked_follows.trans dropCanceled_follows
  · rw [h]
    exact settle_follows.trans (marked_follows.trans dropCanceled_follows)

theorem roundOf_pending (store : Store) (parsed : Parsed) :
    (roundOf store parsed).batch.pending.put = [] := by
  obtain ⟨mailbox, email, thread⟩ := parsed
  cases mailbox <;> cases email <;> cases thread <;> rfl

theorem dropLists_pending {folded : Folded} :
    (dropListsWithoutMailbox store folded).1.pending.Follows store.pending := by
  simp only [dropListsWithoutMailbox]
  split
  · exact Log.Follows.refl _
  · exact commit_follows (by simp)

theorem apply_follows {parsed : Parsed} {tree : Option (List Mailbox × String)} :
    (apply store parsed tree).1.pending.Follows store.pending := by
  have hlanded : (landRound store (roundOf store parsed).batch).1.pending.Follows store.pending :=
    landRound_follows (roundOf_pending store parsed)
  simp only [apply]
  split
  · split
    · exact hlanded
    · exact dropLists_pending.trans (Log.Follows.trans (land_follows rfl) hlanded)
  · exact hlanded

theorem landFetched_follows {fetched : Fetched} :
    (landFetched store fetched).pending.Follows store.pending := land_follows rfl

theorem landUpdated_follows {ids : List EmailId} {patch : EmailPatch} :
    (landUpdated store ids patch).pending.Follows store.pending := land_follows rfl

theorem landMailboxPass_follows {turn : JobTurn} :
    (landMailboxPass store turn).1.pending.Follows store.pending := by
  simp only [landMailboxPass]
  split
  · exact Log.Follows.refl _
  · exact apply_follows

theorem landWrite_follows {job : Job} {answer : SetAnswer} {turn : JobTurn} :
    (landWrite store job answer turn).1.pending.Follows store.pending := by
  simp only [landWrite]
  refine landMailboxPass_follows.trans (landUpdated_follows.trans ?_)
  split
  · exact Log.Follows.refl _
  · exact land_follows rfl

theorem jobRound_follows {progress : JobProgress} {turn : JobTurn} :
    (jobRound store progress turn).1.pending.Follows store.pending := by
  rw [jobRound_heeded]
  cases heeded progress turn with
  | none => exact Log.Follows.refl _
  | some answer => exact landWrite_follows

end Operations

/-! ## Steps -/

/-- One operation on the account, with everything it hears from outside. -/
inductive Step
  | mutate (mutations : List Mutation) (lease : Option String)
  | release (seqs : List Nat)
  | lapse (live : List String)
  | drop (seqs : List Nat)
  | flush (turn : FlushTurn)
  | fetch (fetched : Fetched)
  | round (parsed : Parsed) (tree : Option (List Mailbox × String))
  | job (progress : JobProgress) (turn : JobTurn)

/-- The rows after one operation. -/
def Store.after (store : Store) : Step → Store
  | .mutate mutations lease => (mutateMany store mutations lease).1
  | .release seqs => (releaseHeld store seqs).1
  | .lapse live => (releaseLapsed store live).1
  | .drop seqs => dropHeld store seqs
  | .flush turn => (flushPending store turn).1
  | .fetch fetched => landFetched store fetched
  | .round parsed tree => (apply store parsed tree).1
  | .job progress turn => (jobRound store progress turn).1

/-- **What stands in the log stood there before**, but for the rows a change logs. -/
theorem Store.after_follows {store : Store} {step : Step}
    (h : ∀ mutations lease, step ≠ .mutate mutations lease) :
    (store.after step).pending.Follows store.pending := by
  cases step with
  | mutate mutations lease => exact absurd rfl (h mutations lease)
  | release seqs => exact releaseWhere_follows
  | lapse live => exact releaseWhere_follows
  | drop seqs => exact dropHeld_follows
  | flush turn => exact flushPending_follows
  | fetch fetched => exact landFetched_follows
  | round parsed tree => exact apply_follows
  | job progress turn => exact jobRound_follows

end Huliho.Cache
