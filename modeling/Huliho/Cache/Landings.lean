import Huliho.Cache.Changes

/-!
# What a landing leaves

A landing lays the rows of the log over every header and member it brings. Three lemmas say all of
it: the headers after it (`landAs_emails`), the members of its threads (`landAs_member`) and the
rows of one email — **`landAs_of_header`** where a header lands, `landAs_of_member` where members
land of an email no header stands for, `landAs_of_other` for every other email.
-/

namespace Huliho.Cache

variable {s t : MemberState} {rows others : List PendingRow} {row held : PendingRow} {id : EmailId}

/-! ## Rows that fit somewhere -/

/-- A row that holds the patch and the inverse of some state. -/
def PendingRow.Fitting (row : PendingRow) : Prop := ∃ s, row.fitted s = row

theorem fitting_fitted : (row.fitted s).Fitting := ⟨s, fitted_fitted⟩

/-- A row a replay leaves was fitted there. -/
theorem exists_fitted (h : row ∈ (replayed s rows).2) : ∃ held ∈ rows, ∃ t, row = held.fitted t := by
  induction rows generalizing s with
  | nil => exact absurd h List.not_mem_nil
  | cons first rows ih =>
    rw [replayed_cons] at h
    rcases List.mem_cons.1 h with rfl | h
    · exact ⟨first, List.mem_cons_self, s, rfl⟩
    · obtain ⟨held, hm, t, rfl⟩ := ih h
      exact ⟨held, List.mem_cons_of_mem _ hm, t, rfl⟩

theorem Fits.fitting (h : Fits s rows) (hr : row ∈ rows) : row.Fitting := by
  obtain ⟨held, -, t, rfl⟩ := exists_fitted (h.symm ▸ hr : row ∈ (replayed s rows).2)
  exact fitting_fitted

/-- Two states whose emptying is taken back alike stand in the same mailboxes. -/
theorem emptied_of_inverse (h : (emptied s).inverse s = (emptied t).inverse t) :
    emptied s = emptied t := by
  refine Patch.ext rfl (Finset.ext fun x => ?_)
  have hgain := congrArg (fun patch : EmailPatch => x ∈ patch.gain) h
  simp only [Patch.mem_inverse_gain, Patch.mem_named, mem_emptied_gain, mem_emptied_lose, false_or,
    eq_iff_iff] at hgain
  rw [mem_emptied_lose, mem_emptied_lose]
  tauto

/-- **A row whose inverse a replay keeps stands as it was.** -/
theorem fitted_eq_self (h : row.Fitting) (hi : (row.fitted s).inverse = row.inverse) :
    row.fitted s = row := by
  obtain ⟨t, ht⟩ := h
  have hinverse : row.inverse = (row.patchAt t).inverse t := by
    conv_lhs => rw [← ht]
    rfl
  have hpatch : row.patch = row.patchAt t := by
    conv_lhs => rw [← ht]
    rfl
  have hsame : row.patchAt s = row.patchAt t := by
    have hi : (row.patchAt s).inverse s = (row.patchAt t).inverse t := hi.trans hinverse
    unfold PendingRow.patchAt at hi ⊢
    split
    · rename_i hd
      rw [if_pos hd, if_pos hd] at hi
      exact emptied_of_inverse hi
    · rfl
  unfold PendingRow.fitted at hi ⊢
  rw [hsame, ← hpatch] at hi ⊢
  rw [show row.patch.inverse s = row.inverse from hi]

/-- Every row a replay changes is among the refitted ones. -/
theorem mem_refitted_or (hs : rows.Pairwise fun a b => a.seq < b.seq)
    (hf : ∀ row ∈ rows, row.Fitting) (h : row ∈ (replayed s rows).2) :
    row ∈ refitted rows (replayed s rows).2 ∨ row ∈ rows := by
  obtain ⟨held, hm, t, rfl⟩ := exists_fitted h
  by_cases hin : held.fitted t ∈ refitted rows (replayed s rows).2
  · exact .inl hin
  refine .inr ?_
  have hfind : rows.find? (fun row => decide (row.seq = (held.fitted t).seq)) = some held := by
    cases hc : rows.find? fun row => decide (row.seq = (held.fitted t).seq) with
    | none =>
      have := List.find?_eq_none.1 hc held hm
      simp at this
    | some found =>
      have hfound := List.find?_some hc
      have hseq : found.seq = held.seq := of_decide_eq_true hfound
      have := Sequence.unique (s := ⟨rows, hs⟩) (List.mem_of_find?_eq_some hc) hm hseq
      rw [this]
  have hinverse : (held.fitted t).inverse = held.inverse := by
    by_contra hne
    refine hin (List.mem_filter.2 ⟨h, decide_eq_true ?_⟩)
    rw [hfind]
    exact fun hc => hne (Option.some.inj hc).symm
  rw [fitted_eq_self (hf held hm) hinverse]
  exact hm

/-- What the refitted rows of an email make of its rows. -/
theorem map_latest_refitted {fitted : List PendingRow}
    (hs : rows.Pairwise fun a b => a.seq < b.seq) (hf : ∀ row ∈ rows, row.Fitting)
    (hin : ∀ row ∈ fitted, row.seq ∈ rows.map PendingRow.seq →
      row ∈ refitted rows (replayed s rows).2)
    (hall : ∀ row ∈ refitted rows (replayed s rows).2, row ∈ fitted) :
    rows.map (Sequence.latest PendingRow.seq fitted) = (replayed s rows).2 :=
  Sequence.map_latest hs (replayed_map fun _ _ => rfl)
    (fun row hr hseq => mem_of_mem_refitted (hin row hr hseq))
    fun row hr => (mem_refitted_or hs hf hr).imp_left (hall row)

/-- Refitted rows of other emails leave the rows of an email. -/
theorem map_latest_other {fitted : List PendingRow} (hs : rows.Pairwise fun a b => a.seq < b.seq)
    (hin : ∀ row ∈ fitted, row.seq ∉ rows.map PendingRow.seq) :
    rows.map (Sequence.latest PendingRow.seq fitted) = rows :=
  Sequence.map_latest hs rfl (fun row hr hseq => absurd hseq (hin row hr)) fun _ hr => .inr hr

/-! ## Where the refitted rows come from -/

section Log

variable {log : Log}

/-- A refitted row has the number of a row of its email. -/
theorem id_of_seq (hr : ∃ held ∈ log, row.Refits held) (h : row.seq ∈ (log.of id).map PendingRow.seq) :
    row.id = id := by
  obtain ⟨held, hm, hf⟩ := hr
  obtain ⟨other, ho, hseq⟩ := List.mem_map.1 h
  obtain ⟨hlog, hid⟩ := Log.mem_of.1 ho
  rw [hf.id, log.unique hm hlog (hf.seq.symm.trans hseq.symm), hid]

theorem mem_relaidHeaders {headers : List EmailHeader} :
    row ∈ (relaidHeaders headers log.rows).2 ↔ ∃ header ∈ headers,
      row ∈ refitted (log.of header.id) (replayed header.state (log.of header.id)).2 := by
  simp only [relaidHeaders, List.mem_flatMap, relaidHeader]
  refine exists_congr fun header => and_congr_right fun _ => ?_
  split
  · rename_i hnone
    have hnone : log.of header.id = [] := hnone
    simp [hnone, refitted]
  · exact Iff.rfl

theorem relaidHeader_id {header : EmailHeader} : (relaidHeader rows header).1.id = header.id := by
  simp only [relaidHeader]
  split <;> rfl

/-- The refitted rows of members: those of the emails no header stands for. -/
theorem mem_relaidThreads {threads : List ThreadRow} {headed : EmailId → Bool} :
    row ∈ (relaidThreads threads rows headed).2 ↔ ∃ thread ∈ threads, ∃ id member,
      thread.members.get id = some member ∧ headed id = false ∧
        row ∈ refitted (ofEmail rows id) (replayed member (ofEmail rows id)).2 := by
  simp only [relaidThreads, List.mem_flatMap, Prod.exists]
  refine exists_congr fun thread => and_congr_right fun _ => exists_congr fun id =>
    exists_congr fun member => and_congr Record.get_eq_some.symm ?_
  simp only [relaidMember]
  split
  · rename_i hnone
    simp [hnone, refitted]
  · cases headed id <;> simp

theorem id_of_mem_refitted (h : row ∈ refitted (log.of id) (replayed s (log.of id)).2) :
    row.id = id := by
  obtain ⟨held, hm, hf⟩ := refits_replayed (mem_of_mem_refitted h)
  exact hf.id.trans (Log.mem_of.1 hm).2

/-- Rows in the place of their own numbers keep their email. -/
theorem ofEmail_substituted {fitted : List PendingRow} (id : EmailId)
    (h : ∀ row ∈ fitted, ∃ held ∈ log, row.Refits held) :
    ofEmail (substituted log.rows fitted) id =
        (log.of id).map (Sequence.latest PendingRow.seq fitted) ∧
      List.Forall₂ PendingRow.Refits ((log.of id).map (Sequence.latest PendingRow.seq fitted))
        (log.of id) := by
  have hrefits : ∀ row ∈ log, (Sequence.latest PendingRow.seq fitted row).Refits row := by
    intro row hr
    rcases Sequence.latest_mem PendingRow.seq fitted row with hl | hl
    · obtain ⟨held, hm, hf⟩ := h _ hl
      have hseq := (Sequence.latest_seq PendingRow.seq fitted row).symm.trans hf.seq
      rw [← log.unique hr hm hseq] at hf
      exact hf
    · rw [hl.1]
      exact PendingRow.Refits.refl row
  have hof : Log.of (log.revise _ (Sequence.latest_seq PendingRow.seq fitted)) id =
      (log.of id).map (Sequence.latest PendingRow.seq fitted) :=
    Log.of_revise fun row hr => (hrefits row hr).id
  refine ⟨hof, ?_⟩
  rw [List.forall₂_map_left_iff, List.forall₂_same]
  exact fun row hr => hrefits row (Log.mem_of.1 hr).1

theorem refits_relaidHeaders {headers : List EmailHeader}
    (h : row ∈ (relaidHeaders headers log.rows).2) : ∃ held ∈ log, row.Refits held := by
  obtain ⟨header, -, hr⟩ := mem_relaidHeaders.1 h
  exact refits_refit hr

/-- The rows of an email after the headers landed, where none of its own did. -/
theorem of_substituted {headers : List EmailHeader} (h : ∀ header ∈ headers, header.id ≠ id) :
    ofEmail (substituted log.rows (relaidHeaders headers log.rows).2) id = log.of id := by
  refine (ofEmail_substituted id fun row hr => refits_relaidHeaders hr).1.trans
    (map_latest_other Log.of_sorted fun row hr hseq => ?_)
  obtain ⟨header, hh, hr'⟩ := mem_relaidHeaders.1 hr
  exact h header hh ((id_of_mem_refitted hr').symm.trans (id_of_seq (refits_relaidHeaders hr) hseq))

end Log

/-! ## The landing -/

section Landing

variable {store : Store} {batch : Batch} {kind : LandingKind}

/-- The rows a landing refits. -/
def fittedBy (store : Store) (batch : Batch) : List PendingRow :=
  (overlaid store batch .fetch store.pending.rows).fitted

/-- Whether a header stands for a pending email as a batch lands. -/
def headedBy (store : Store) (batch : Batch) (id : EmailId) : Bool :=
  (standingHeaders store (relaidHeaders batch.emails.put store.pending.rows).1 store.pending.rows
    id).isSome

theorem fittedBy_eq : fittedBy store batch =
    (relaidHeaders batch.emails.put store.pending.rows).2 ++
      (relaidThreads batch.threads.put
        (substituted store.pending.rows (relaidHeaders batch.emails.put store.pending.rows).2)
        (headedBy store batch)).2 := rfl

theorem refits_fittedBy (h : row ∈ fittedBy store batch) :
    ∃ held ∈ store.pending, row.Refits held := refits_overlaid h

/-- A batch that writes no rows of the log and clears none; the rows it takes out are those of
emails that leave, whose members it does not bring. -/
structure Batch.Lays (batch : Batch) (store : Store) : Prop where
  put : batch.pending.put = []
  keeps : ¬ batch.clears .pending
  gone : ∀ row ∈ store.pending, row.seq ∈ batch.pending.remove → row.id ∈ batch.emails.remove ∧
    (∀ header ∈ batch.emails.put, header.id ≠ row.id) ∧
    ∀ thread ∈ batch.threads.put, thread.members.get row.id = none

/-! ## The rows of one email -/

theorem headedBy_of_lands (h : ∃ header ∈ batch.emails.put, header.id = id) :
    headedBy store batch id = true := by
  obtain ⟨header, hm, rfl⟩ := h
  have hlaid : (relaidHeader store.pending.rows header).1 ∈
      (relaidHeaders batch.emails.put store.pending.rows).1.reverse :=
    List.mem_reverse.2 (List.mem_map_of_mem hm)
  unfold headedBy standingHeaders standing
  cases hc : (relaidHeaders batch.emails.put store.pending.rows).1.reverse.find?
      fun row => decide (row.id = header.id) with
  | some found => rfl
  | none =>
    have hid := List.find?_eq_none.1 hc _ hlaid
    rw [relaidHeader_id] at hid
    exact absurd (decide_eq_true rfl) hid

/-- Where no header lands, one stands for a pending email as it did in the store. -/
theorem headedBy_of_not_lands (h : ∀ header ∈ batch.emails.put, header.id ≠ id)
    (hr : store.pending.of id ≠ []) : headedBy store batch id = (store.emails id).isSome := by
  have hnone : (relaidHeaders batch.emails.put store.pending.rows).1.reverse.find?
      (fun row => decide (row.id = id)) = none := by
    refine List.find?_eq_none.2 fun row hm => ?_
    obtain ⟨header, hheader, rfl⟩ := List.mem_map.1 (List.mem_reverse.1 hm)
    rw [relaidHeader_id]
    simpa using h header hheader
  obtain ⟨row, hm⟩ := List.exists_mem_of_ne_nil _ hr
  obtain ⟨hlog, rfl⟩ := Log.mem_of.1 hm
  have hpending : row.id ∈ pendingIds store.pending.rows :=
    mem_firsts.2 (List.mem_map_of_mem hlog)
  unfold headedBy standingHeaders standing
  rw [hnone]
  simp only [if_pos hpending]

/-- The refitted rows of an email, where none of its headers lands. -/
theorem mem_fittedBy (h : ∀ header ∈ batch.emails.put, header.id ≠ id)
    (hseq : row.seq ∈ (store.pending.of id).map PendingRow.seq) :
    row ∈ fittedBy store batch ↔ store.emails id = none ∧ ∃ thread ∈ batch.threads.put,
      ∃ member, thread.members.get id = some member ∧
        row ∈ refitted (store.pending.of id) (replayed member (store.pending.of id)).2 := by
  have hne : store.pending.of id ≠ [] := by
    rintro hc
    rw [hc] at hseq
    exact List.not_mem_nil hseq
  have hof : ofEmail (substituted store.pending.rows
      (relaidHeaders batch.emails.put store.pending.rows).2) id = store.pending.of id :=
    of_substituted h
  rw [fittedBy_eq, List.mem_append]
  constructor
  · rintro (hr | hr)
    · obtain ⟨header, hm, hr⟩ := mem_relaidHeaders.1 hr
      obtain ⟨held, hheld, hf⟩ := refits_refit hr
      exact absurd ((id_of_mem_refitted hr).symm.trans (id_of_seq ⟨held, hheld, hf⟩ hseq))
        (h header hm)
    · have hrefits := refits_fittedBy (fittedBy_eq ▸ List.mem_append_right _ hr :
        row ∈ fittedBy store batch)
      obtain ⟨thread, ht, other, member, hm, hheaded, hr⟩ := mem_relaidThreads.1 hr
      have hid : row.id = other := by
        obtain ⟨held, hheld, hf⟩ := refits_replayed (mem_of_mem_refitted hr)
        exact hf.id.trans (mem_ofEmail.1 hheld).2
      obtain rfl : other = id := hid.symm.trans (id_of_seq hrefits hseq)
      rw [headedBy_of_not_lands h hne] at hheaded
      rw [hof] at hr
      exact ⟨by simpa using hheaded, thread, ht, member, hm, hr⟩
  · rintro ⟨hemail, thread, ht, member, hm, hr⟩
    refine .inr (mem_relaidThreads.2 ⟨thread, ht, id, member, hm, ?_, hof.symm ▸ hr⟩)
    rw [headedBy_of_not_lands h hne, hemail]
    rfl

/-- No row that leaves is refitted. -/
theorem Batch.Lays.apart (h : batch.Lays store) :
    ∀ row ∈ fittedBy store batch, row.seq ∉ batch.pending.remove := by
  intro row hr hin
  obtain ⟨held, hm, hf⟩ := refits_fittedBy hr
  obtain ⟨-, hheads, hmembers⟩ := h.gone held hm (hf.seq ▸ hin)
  have hseq : row.seq ∈ (store.pending.of held.id).map PendingRow.seq :=
    List.mem_map.2 ⟨held, Log.mem_of.2 ⟨hm, rfl⟩, hf.seq.symm⟩
  obtain ⟨-, thread, ht, member, hmember, -⟩ := (mem_fittedBy hheads hseq).1 hr
  rw [hmembers thread ht] at hmember
  cases hmember

theorem landAs_pending (h : batch.Lays store) :
    (landAs store batch kind).1.pending =
      (store.pending.remove batch.pending.remove).putAll (fittedBy store batch) := by
  simp only [landAs]
  split
  · rename_i hnone
    have hempty : fittedBy store batch = [] := by
      refine List.eq_nil_iff_forall_not_mem.2 fun row hr => ?_
      obtain ⟨held, hm, -⟩ := refits_fittedBy hr
      rw [Sequence.mem_def, hnone] at hm
      exact List.not_mem_nil hm
    rw [hempty]
    simp only [Store.commit, if_neg h.keeps, h.put]
  · simp only [Store.commit, overlaid_pending, h.put, List.nil_append]
    have hkeeps : ¬ (overlaid store batch kind store.pending.rows).batch.clears .pending := h.keeps
    rw [if_neg hkeeps]
    rfl

/-- **The rows of an email after a landing**: what stays, each as the landing refits it. -/
theorem landAs_of (h : batch.Lays store) :
    (landAs store batch kind).1.pending.of id =
      ((store.pending.of id).filter fun row => row.seq ∉ batch.pending.remove).map
        (Sequence.latest PendingRow.seq (fittedBy store batch)) := by
  have hstand : ∀ row ∈ fittedBy store batch,
      ∃ held ∈ store.pending.remove batch.pending.remove, held.seq = row.seq := by
    intro row hr
    obtain ⟨held, hm, hf⟩ := refits_fittedBy hr
    exact ⟨held, Sequence.mem_remove.2 ⟨hm, hf.seq ▸ h.apart row hr⟩, hf.seq.symm⟩
  rw [landAs_pending h, Sequence.putAll_of_mem hstand, Log.of_revise, Log.of_remove]
  intro row hr
  have hr := (Sequence.mem_remove.1 hr).1
  rcases Sequence.latest_mem PendingRow.seq (fittedBy store batch) row with hl | hl
  · refine id_of_seq (refits_fittedBy hl) ?_
    rw [Sequence.latest_seq PendingRow.seq]
    exact List.mem_map_of_mem (Log.mem_of.2 ⟨hr, rfl⟩)
  · rw [hl.1]

/-- Each row of an email after a landing is one of before, refitted. -/
theorem landAs_refits (h : batch.Lays store) :
    List.Forall₂ PendingRow.Refits ((landAs store batch kind).1.pending.of id)
      ((store.pending.of id).filter fun row => row.seq ∉ batch.pending.remove) := by
  rw [landAs_of h, List.forall₂_map_left_iff, List.forall₂_same]
  intro row hr
  have hr := (Log.mem_of.1 (List.mem_filter.1 hr).1).1
  rcases Sequence.latest_mem PendingRow.seq (fittedBy store batch) row with hl | hl
  · obtain ⟨held, hm, hf⟩ := refits_fittedBy hl
    have hseq := (Sequence.latest_seq PendingRow.seq (fittedBy store batch) row).symm.trans hf.seq
    rw [store.pending.unique hr hm hseq]
    rw [store.pending.unique hr hm hseq] at hf
    exact hf
  · rw [hl.1]
    exact PendingRow.Refits.refl row

/-- A header that lands fits the rows of its email. -/
theorem landAs_of_header (h : batch.Lays store)
    (hkept : ∀ row ∈ store.pending.of id, row.seq ∉ batch.pending.remove)
    (hfit : ∀ row ∈ store.pending.of id, row.Fitting)
    (hlands : ∃ header ∈ batch.emails.put, header.id = id)
    (hone : ∀ header ∈ batch.emails.put, header.id = id → header.state = s) :
    (landAs store batch kind).1.pending.of id = (replayed s (store.pending.of id)).2 := by
  rw [landAs_of h, List.filter_eq_self.2 fun row hr => decide_eq_true (hkept row hr)]
  refine map_latest_refitted Log.of_sorted hfit (fun row hr hseq => ?_) fun row hr => ?_
  · rw [fittedBy_eq] at hr
    rcases List.mem_append.1 hr with hr | hr
    · obtain ⟨header, hm, hr⟩ := mem_relaidHeaders.1 hr
      obtain ⟨held, hheld, hf⟩ := refits_refit hr
      have hid := (id_of_mem_refitted hr).symm.trans (id_of_seq ⟨held, hheld, hf⟩ hseq)
      rw [hone header hm hid, hid] at hr
      exact hr
    · have hrefits := refits_fittedBy (fittedBy_eq ▸ List.mem_append_right _ hr :
        row ∈ fittedBy store batch)
      obtain ⟨thread, ht, other, member, hm, hheaded, hr⟩ := mem_relaidThreads.1 hr
      have hid : row.id = other := by
        obtain ⟨held, hheld, hf⟩ := refits_replayed (mem_of_mem_refitted hr)
        exact hf.id.trans (mem_ofEmail.1 hheld).2
      obtain rfl : other = id := hid.symm.trans (id_of_seq hrefits hseq)
      rw [headedBy_of_lands hlands] at hheaded
      cases hheaded
  · obtain ⟨header, hm, rfl⟩ := hlands
    rw [fittedBy_eq]
    refine List.mem_append_left _ (mem_relaidHeaders.2 ⟨header, hm, ?_⟩)
    rw [hone header hm rfl]
    exact hr

/-- Members that land fit the rows of an email no header stands for. -/
theorem landAs_of_member (h : batch.Lays store)
    (hkept : ∀ row ∈ store.pending.of id, row.seq ∉ batch.pending.remove)
    (hfit : ∀ row ∈ store.pending.of id, row.Fitting) (hemail : store.emails id = none)
    (hheads : ∀ header ∈ batch.emails.put, header.id ≠ id)
    (hlands : ∃ thread ∈ batch.threads.put, thread.members.get id ≠ none)
    (hone : ∀ thread ∈ batch.threads.put, ∀ member, thread.members.get id = some member →
      member = s) :
    (landAs store batch kind).1.pending.of id = (replayed s (store.pending.of id)).2 := by
  rw [landAs_of h, List.filter_eq_self.2 fun row hr => decide_eq_true (hkept row hr)]
  refine map_latest_refitted Log.of_sorted hfit (fun row hr hseq => ?_) fun row hr => ?_
  · obtain ⟨-, thread, ht, member, hm, hr⟩ := (mem_fittedBy hheads hseq).1 hr
    rw [hone thread ht member hm] at hr
    exact hr
  · obtain ⟨thread, ht, hm⟩ := hlands
    obtain ⟨member, hm⟩ := Option.ne_none_iff_exists'.1 hm
    have hseq : row.seq ∈ (store.pending.of id).map PendingRow.seq := by
      obtain ⟨held, hheld, hf⟩ := refits_replayed (mem_of_mem_refitted hr)
      exact hf.seq ▸ List.mem_map_of_mem hheld
    rw [← hone thread ht member hm] at hr
    exact (mem_fittedBy hheads hseq).2 ⟨hemail, thread, ht, member, hm, hr⟩

/-- Any other email keeps its rows as they stand. -/
theorem landAs_of_other (h : batch.Lays store)
    (hheads : ∀ header ∈ batch.emails.put, header.id ≠ id)
    (hother : store.emails id = none → ∀ thread ∈ batch.threads.put,
      thread.members.get id = none) :
    (landAs store batch kind).1.pending.of id =
      (store.pending.of id).filter fun row => row.seq ∉ batch.pending.remove := by
  rw [landAs_of h]
  refine map_latest_other (Log.of_sorted.filter _) fun row hr hseq => ?_
  obtain ⟨held, hheld, hseq'⟩ := List.mem_map.1 hseq
  have hin : row.seq ∈ (store.pending.of id).map PendingRow.seq :=
    hseq' ▸ List.mem_map_of_mem (List.mem_filter.1 hheld).1
  obtain ⟨hemail, thread, ht, member, hm, -⟩ := (mem_fittedBy hheads hin).1 hr
  rw [hother hemail thread ht] at hm
  cases hm

/-! ## Headers and members -/

/-- A header as it lands under the log. -/
def laid (log : Log) (header : EmailHeader) : EmailHeader :=
  { header with state := (replayed header.state (log.of header.id)).1 }

theorem relaidHeader_fst {log : Log} {header : EmailHeader} :
    (relaidHeader log.rows header).1 = laid log header := by
  simp only [relaidHeader]
  split
  · rename_i hnone
    have hnone : log.of header.id = [] := hnone
    rw [laid, hnone]
    rfl
  · rfl

/-- **The headers after a landing**: the ones it brings under their rows, the others as they
stood. -/
theorem landAs_emails : (landAs store batch kind).1.emails id =
    ((batch.emails.landing EmailHeader.id id).map (laid store.pending)).or
      (if id ∈ batch.emails.remove ∨ batch.clears .emails then none else store.emails id) := by
  have hrelaid : (relaidHeaders batch.emails.put store.pending.rows).1 =
      batch.emails.put.map (laid store.pending) :=
    List.map_congr_left fun header _ => relaidHeader_fst
  simp only [landAs]
  split
  · rename_i hnone
    have hself : laid store.pending = fun header => header := funext fun header => by
      simp [laid, Log.of, hnone]
    rw [commit_emails, hself, Option.map_id']
  · have hlanding : (overlaid store batch kind store.pending.rows).batch.emails.landing
        EmailHeader.id id = (batch.emails.landing EmailHeader.id id).map (laid store.pending) :=
      Change.landing_map hrelaid fun _ => rfl
    rw [commit_emails, hlanding]
    rfl

/-- **The members after a landing**: those of the threads it brings under their rows, the others as
they stood. -/
theorem landAs_member {threadId : ThreadId} : (landAs store batch kind).1.memberAt threadId id =
    match batch.threads.landing ThreadRow.id threadId with
    | some thread => (thread.members.get id).map fun member =>
        (replayed member (store.pending.of id)).1
    | none => if threadId ∈ batch.threads.remove ∨ batch.clears .threads then none
        else store.memberAt threadId id := by
  simp only [landAs]
  split
  · rename_i hnone
    rw [commit_member]
    cases batch.threads.landing ThreadRow.id threadId with
    | some thread => simp [Log.of, hnone]
    | none => rfl
  · have hmember : ∀ headed member,
        (relaidMember (substituted store.pending.rows
          (relaidHeaders batch.emails.put store.pending.rows).2) headed id member).1 =
          (replayed member (store.pending.of id)).1 := by
      intro headed member
      have hheaders : ∀ row ∈ (relaidHeaders batch.emails.put store.pending.rows).2,
          ∃ held ∈ store.pending, row.Refits held := fun row hr => refits_relaidHeaders hr
      obtain ⟨hof, hrefits⟩ := ofEmail_substituted id hheaders
      rw [← replayed_follows (hrefits.imp fun _ _ h => h.toFollows), ← hof]
      simp only [relaidMember]
      split
      · rename_i hnone
        rw [hnone]
        rfl
      · rfl
    rw [commit_member]
    have hlanding : (overlaid store batch kind store.pending.rows).batch.threads.landing
        ThreadRow.id threadId = (batch.threads.landing ThreadRow.id threadId).map _ :=
      Change.landing_map rfl fun _ => rfl
    rw [hlanding]
    cases batch.threads.landing ThreadRow.id threadId with
    | some thread => simp [hmember]
    | none => rfl

end Landing

end Huliho.Cache
