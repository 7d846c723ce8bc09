import Huliho.Cache.Logged

/-!
# What a flush leaves of one email

A flush round drops the rows that add up to nothing (`dropCanceled_rows`), marks the ones it sends
(`marked_rows`) and settles the answer: **`settle_rows`** says which rows of an email stay,
`settle_email` and `settle_member` what the store shows of it.
-/

namespace Huliho.Cache

variable {store : Store} {id : EmailId} {threadId : ThreadId}

theorem log_mem_pendingIds {rows : List PendingRow} :
    id ∈ pendingIds rows ↔ ∃ row ∈ rows, row.id = id := by
  rw [pendingIds, mem_firsts, List.mem_map]

/-! ## Rows that cancel -/

/-- The rows of an email once the rows that add up to nothing left. -/
theorem dropCanceled_rows : (dropCanceled store).pending.of id =
    if cancels (store.pending.of id) then [] else store.pending.of id := by
  have hleave : ∀ row ∈ store.pending.of id,
      row.seq ∈ ((pendingIds store.pending.rows).flatMap fun id =>
        if cancels (store.pending.of id) then store.pending.of id else []).map PendingRow.seq ↔
      cancels (store.pending.of id) = true := by
    intro row hr
    obtain ⟨hlog, hid⟩ := Log.mem_of.1 hr
    rw [List.mem_map]
    constructor
    · rintro ⟨other, ho, hseq⟩
      obtain ⟨name, -, ho⟩ := List.mem_flatMap.1 ho
      split at ho
      · rename_i hc
        obtain ⟨hother, hname⟩ := Log.mem_of.1 ho
        rw [store.pending.unique hother hlog hseq, hid] at hname
        rwa [hname]
      · exact absurd ho List.not_mem_nil
    · intro hc
      refine ⟨row, List.mem_flatMap.2 ⟨id, log_mem_pendingIds.2 ⟨row, hlog, hid⟩, ?_⟩, rfl⟩
      rw [if_pos hc]
      exact hr
  simp only [dropCanceled]
  split
  · rename_i hnone
    split
    · rename_i hc
      refine List.eq_nil_iff_forall_not_mem.2 fun row hr => ?_
      have hin := (hleave row hr).2 hc
      rw [hnone] at hin
      exact List.not_mem_nil hin
    · rfl
  · show Log.of (store.pending.remove _) id = _
    rw [Log.of_remove]
    split
    · rename_i hc
      exact List.filter_eq_nil_iff.2 fun row hr hn => of_decide_eq_true hn ((hleave row hr).2 hc)
    · rename_i hc
      exact List.filter_eq_self.2 fun row hr =>
        decide_eq_true fun hin => hc ((hleave row hr).1 hin)

theorem dropCanceled_emails : (dropCanceled store).emails = store.emails := by
  simp only [dropCanceled]
  split
  · rfl
  · funext id
    rw [commit_emails]
    simp [Change.landing, Batch.clears]

theorem dropCanceled_threads : (dropCanceled store).threads = store.threads := by
  simp only [dropCanceled]
  split
  · rfl
  · funext threadId
    rw [commit_threads]
    simp [Change.landing, Batch.clears]

/-! ## Rows that go out -/

/-- Whether a round sends the rows of an email: the first ones the log names do. -/
def sends (store : Store) (limit : Nat) (id : EmailId) : Bool :=
  id ∈ (pendingIds (ready store)).take (max limit 1)

theorem sentRows_eq {limit now : Nat} : sentRows store limit now =
    (store.pending.rows.filter fun row => !row.held && sends store limit row.id).map
      fun row => { row with sentAt := some now } := by
  unfold sentRows firstEmails sends
  rw [ready, List.filter_filter]
  congr 1
  exact List.filter_congr fun row _ => Bool.and_comm _ _

/-- A row as a round marks it. -/
def mark (store : Store) (limit now : Nat) (row : PendingRow) : PendingRow :=
  if !row.held && sends store limit row.id then { row with sentAt := some now } else row

theorem marked_rows {limit now : Nat} : (marked store limit now).pending.of id =
    (store.pending.of id).map (mark store limit now) := by
  have hall := Sequence.putAll_filter (s := store.pending)
    (fun row => !row.held && sends store limit row.id)
    (f := fun row => { row with sentAt := some now }) fun _ => rfl
  show Log.of ((store.pending.remove []).putAll (sentRows store limit now)) id = _
  rw [Sequence.remove_nil, sentRows_eq, hall, Log.of_revise]
  · rfl
  · intro row _
    split <;> rfl

theorem mark_change {limit now : Nat} (row : PendingRow) :
    (mark store limit now row).change = row.change := by
  unfold mark
  split <;> rfl

theorem marked_change {limit now : Nat} :
    ((marked store limit now).pending.of id).map PendingRow.change =
      (store.pending.of id).map PendingRow.change := by
  rw [marked_rows, List.map_map]
  exact List.map_congr_left fun row _ => mark_change row

theorem marked_emails {limit now : Nat} : (marked store limit now).emails = store.emails := by
  funext id
  rw [marked, commit_emails]
  simp [Change.landing, Batch.clears]

theorem marked_threads {limit now : Nat} : (marked store limit now).threads = store.threads := by
  funext threadId
  rw [marked, commit_threads]
  simp [Change.landing, Batch.clears]

/-- The rows a round sends of one email: all that are not held. -/
theorem ofEmail_sentRows {limit now : Nat} : ofEmail (sentRows store limit now) id =
    if sends store limit id then ((store.pending.of id).filter fun row => !row.held).map
      (fun row => { row with sentAt := some now }) else [] := by
  rw [sentRows_eq, ofEmail, List.filter_map, List.filter_filter]
  split
  · rename_i hs
    rw [Log.of, List.filter_filter]
    congr 1
    refine List.filter_congr fun row _ => ?_
    by_cases hid : row.id = id
    · simp [hid, hs]
    · simp [hid]
  · rename_i hs
    rw [List.map_eq_nil_iff, List.filter_eq_nil_iff]
    intro row _
    by_cases hid : row.id = id
    · simp [hid, hs]
    · simp [hid]

/-! ## Emails that are gone -/

section Gone

variable {ids : List EmailId} {named : List ThreadId}

/-- A thread that stays shows every other member as it did. -/
theorem commit_gone_member (hkeyed : store.Keyed) {batch : Batch}
    (hthreads : batch.threads = (goneOf store ids named).threads)
    (hid : id ∉ ids) {s : MemberState} (h : (store.commit batch).memberAt threadId id = some s) :
    store.memberAt threadId id = some s := by
  rw [commit_member, hthreads] at h
  cases hl : (goneOf store ids named).threads.landing ThreadRow.id threadId with
  | some thread =>
    obtain ⟨hm, rfl⟩ := Change.landing_eq_some hl
    rw [hl] at h
    obtain ⟨held, hheld, rfl⟩ := List.mem_map.1 (List.mem_filter.1 hm).1
    obtain ⟨other, -, hheld⟩ := List.mem_filterMap.1 hheld
    have hthread : store.threads (without held ids).id = some held :=
      (hkeyed.thread _ _ hheld).symm ▸ hheld
    rw [Store.memberAt, hthread]
    simpa [without, hid] using h
  | none =>
    rw [hl] at h
    simp only at h
    split at h
    · cases h
    · exact h

end Gone

/-! ## The answer settled -/

section Settle

variable {sent : List PendingRow} {verdict : EmailId → Verdict}

/-- The rows a settlement takes off the log besides those it takes back. -/
def settledAway (sent : List PendingRow) (verdict : EmailId → Verdict) (row : PendingRow) : Prop :=
  (verdict row.id = .gone ∧ row.id ∈ pendingIds sent) ∨
    (verdict row.id = .acknowledged ∧ row.seq ∈ (ofEmail sent row.id).map PendingRow.seq)

instance (sent : List PendingRow) (verdict : EmailId → Verdict) (row : PendingRow) :
    Decidable (settledAway sent verdict row) := inferInstanceAs (Decidable (_ ∨ _))

/-- The emails a settlement finds gone. -/
def goneIn (sent : List PendingRow) (verdict : EmailId → Verdict) : List EmailId :=
  (pendingIds sent).filter fun id => verdict id = .gone

theorem mem_goneIn : id ∈ goneIn sent verdict ↔ id ∈ pendingIds sent ∧ verdict id = .gone := by
  rw [goneIn, List.mem_filter, decide_eq_true_eq]

/-- What a settlement writes once the refused rows were taken back. -/
def settledBatch (taken : Store) (sent : List PendingRow) (verdict : EmailId → Verdict) : Batch :=
  let gone := goneIn sent verdict
  let threads := (sent.filter fun row => verdict row.id = .gone).filterMap PendingRow.threadId
  let removed : Batch := if gone = [] then {} else goneOf taken gone threads
  let acknowledged := (sent.filter fun row => verdict row.id = .acknowledged).map PendingRow.seq
  { removed with pending := { remove := removed.pending.remove ++ acknowledged } }

theorem settle_eq : settle store sent verdict = (takeBack store (takenBy sent verdict)).commit
    (settledBatch (takeBack store (takenBy sent verdict)) sent verdict) := rfl

/-- **The rows of an email after an answer**: what is left once the refused ones were taken back,
without those that were acknowledged or whose email is gone. -/
theorem settle_rows (hsent : ∀ row ∈ sent, ∃ held ∈ store.pending, row.seq = held.seq ∧
      row.id = held.id) :
    (settle store sent verdict).pending.of id =
      ((takeBack store (takenBy sent verdict)).pending.of id).filter
        fun row => ¬ settledAway sent verdict row := by
  have hfollows : (takeBack store (takenBy sent verdict)).pending.Follows store.pending :=
    takeBack_follows
  rw [settle_eq]
  generalize takeBack store (takenBy sent verdict) = taken at hfollows ⊢
  have hgone : (settledBatch taken sent verdict).pending.remove =
      (if goneIn sent verdict = [] then [] else (taken.pending.rows.filter fun row =>
        row.id ∈ goneIn sent verdict).map PendingRow.seq) ++
        (sent.filter fun row => verdict row.id = .acknowledged).map PendingRow.seq := by
    unfold settledBatch
    simp only
    split <;> rfl
  have hclears : ¬ (settledBatch taken sent verdict).clears .pending := by
    unfold settledBatch Batch.clears
    simp only
    split <;> exact List.not_mem_nil
  have hcommit : (taken.commit (settledBatch taken sent verdict)).pending =
      taken.pending.remove (settledBatch taken sent verdict).pending.remove := by
    show ((if (settledBatch taken sent verdict).clears .pending then Sequence.empty
      else taken.pending).remove _).putAll [] = _
    rw [if_neg hclears]
    rfl
  rw [hcommit, Log.of_remove]
  refine List.filter_congr fun row hr => ?_
  obtain ⟨hlog, rfl⟩ := Log.mem_of.1 hr
  rw [decide_eq_decide, not_iff_not, hgone, List.mem_append]
  refine or_congr ?_ ?_
  · by_cases hnone : goneIn sent verdict = []
    · rw [if_pos hnone]
      refine iff_of_false List.not_mem_nil fun h => ?_
      have := mem_goneIn.2 ⟨h.2, h.1⟩
      rw [hnone] at this
      exact List.not_mem_nil this
    · rw [if_neg hnone, List.mem_map]
      constructor
      · rintro ⟨other, ho, hseq⟩
        obtain ⟨hother, hin⟩ := List.mem_filter.1 ho
        rw [taken.pending.unique hother hlog hseq, decide_eq_true_eq, mem_goneIn] at hin
        exact ⟨hin.2, hin.1⟩
      · rintro ⟨hv, hin⟩
        exact ⟨row, List.mem_filter.2 ⟨hlog, decide_eq_true (mem_goneIn.2 ⟨hin, hv⟩)⟩, rfl⟩
  · constructor
    · intro h
      obtain ⟨other, ho, hseq⟩ := List.mem_map.1 h
      obtain ⟨hother, hv⟩ := List.mem_filter.1 ho
      have hid : other.id = row.id := by
        obtain ⟨held, hm, hs, hi⟩ := hsent other hother
        obtain ⟨older, hm', hf⟩ := hfollows row hlog
        have hsame := store.pending.unique hm hm' (hs.symm.trans (hseq.trans hf.seq))
        rw [hi, hsame, hf.id]
      rw [hid] at hv
      exact ⟨of_decide_eq_true hv, List.mem_map.2 ⟨other, mem_ofEmail.2 ⟨hother, hid⟩, hseq⟩⟩
    · rintro ⟨hv, hin⟩
      obtain ⟨other, ho, hseq⟩ := List.mem_map.1 hin
      obtain ⟨hother, hid⟩ := mem_ofEmail.1 ho
      exact List.mem_map.2 ⟨other, List.mem_filter.2 ⟨hother, decide_eq_true (hid ▸ hv)⟩, hseq⟩

theorem settledBatch_reset {taken : Store} : (settledBatch taken sent verdict).reset = [] := by
  unfold settledBatch
  simp only
  split <;> rfl

theorem settledBatch_emails {taken : Store} :
    (settledBatch taken sent verdict).emails = { remove := goneIn sent verdict } := by
  unfold settledBatch
  simp only
  split
  · rename_i hnone
    rw [hnone]
  · rfl

theorem settledBatch_threads {taken : Store} :
    (settledBatch taken sent verdict).threads =
      if goneIn sent verdict = [] then {}
      else (goneOf taken (goneIn sent verdict)
        ((sent.filter fun row => verdict row.id = .gone).filterMap PendingRow.threadId)).threads := by
  unfold settledBatch
  simp only
  split <;> rfl

/-- The header of an email after an answer. -/
theorem settle_email : (settle store sent verdict).emails id =
    if id ∈ goneIn sent verdict then none
    else (takeBack store (takenBy sent verdict)).emails id := by
  rw [settle_eq, commit_emails, settledBatch_emails]
  simp [Change.landing, Batch.clears, settledBatch_reset]

/-- The members of any email but the gone ones after an answer. -/
theorem settle_member (hkeyed : store.Keyed) (hid : id ∉ goneIn sent verdict) {s : MemberState}
    (h : (settle store sent verdict).memberAt threadId id = some s) :
    (takeBack store (takenBy sent verdict)).memberAt threadId id = some s := by
  rw [settle_eq] at h
  by_cases hnone : goneIn sent verdict = []
  · rw [commit_member, settledBatch_threads, if_pos hnone] at h
    simpa [Change.landing, Batch.clears, settledBatch_reset] using h
  · exact commit_gone_member (takeBack_keyed hkeyed)
      (by rw [settledBatch_threads, if_neg hnone]) hid h

theorem settle_keyed (hkeyed : store.Keyed) : (settle store sent verdict).Keyed :=
  (takeBack_keyed hkeyed).commit

end Settle

end Huliho.Cache
