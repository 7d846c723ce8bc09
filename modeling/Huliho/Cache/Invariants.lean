import Huliho.Cache.Answers

/-!
# What holds of every store

`Store.Sound`: rows stand under their ids, a held row is a destroy, a destroy is the last row of its
email, each row fits some state, and a header **agrees** with its rows — it holds the last word of
the log on every path. `Store.Sound.after` says that every operation keeps it, whatever the server
answers.
-/

namespace Huliho.Cache

variable {store : Store} {id : EmailId} {s t : MemberState} {rows others : List PendingRow}
  {row held : PendingRow}

/-! ## Agreement -/

/-- A state that holds the last word of some rows. -/
def Agrees (s : MemberState) (rows : List PendingRow) : Prop :=
  ∀ x word, lastWord rows x = some word → (x ∈ s ↔ word = true)

theorem agrees_replayed (s : MemberState) (rows : List PendingRow) :
    Agrees (replayed s rows).1 rows := by
  intro x word h
  rw [mem_replayed, h]

theorem lastWord_append {x : Path} :
    lastWord (rows ++ others) x = (lastWord others x).or (lastWord rows x) := by
  induction rows with
  | nil => simp [lastWord]
  | cons row rows ih => rw [List.cons_append, lastWord, lastWord, ih, Option.or_assoc]

/-- Rows laid over a state that agrees with the rows before them. -/
theorem Agrees.append (h : Agrees s rows) : Agrees (replayed s others).1 (rows ++ others) := by
  intro x word hw
  rw [mem_replayed]
  rw [lastWord_append] at hw
  cases hl : lastWord others x with
  | some last =>
    rw [hl] at hw
    obtain rfl := Option.some.inj hw
    rfl
  | none =>
    rw [hl, Option.none_or] at hw
    exact h x word hw

/-- What agrees with rows agrees with the last ones of them. -/
theorem Agrees.suffix (h : Agrees s (rows ++ others)) : Agrees s others := by
  intro x word hw
  refine h x word ?_
  rw [lastWord_append, hw]
  rfl

theorem Agrees.follows (h : Agrees s others) (hf : List.Forall₂ PendingRow.Follows rows others) :
    Agrees s rows := by
  unfold Agrees
  rw [lastWord_follows hf]
  exact h

theorem Agrees.change (h : Agrees s others)
    (hc : rows.map PendingRow.change = others.map PendingRow.change) : Agrees s rows := by
  have hsame : lastWord rows = lastWord others := by
    funext x
    clear h
    induction rows generalizing others with
    | nil =>
      obtain rfl : others = [] := by simpa using hc.symm
      rfl
    | cons row rows ih =>
      cases others with
      | nil => simp at hc
      | cons other others =>
        obtain ⟨hrow, hrows⟩ := List.cons.inj hc
        rw [lastWord, lastWord, ih hrows, word_change hrow]
  unfold Agrees
  rw [hsame]
  exact h

theorem agrees_nil : Agrees s [] := fun _ _ h => nomatch h

theorem fitting_change (h : row.change = held.change) (hf : held.Fitting) : row.Fitting := by
  obtain ⟨s, hs⟩ := hf
  refine ⟨s, ?_⟩
  have hone : Fits s [row] ↔ Fits s [held] := fits_change (by simp [h])
  have hfits := hone.2 (by
    unfold Fits
    rw [replayed_cons, hs]
    rfl)
  unfold Fits at hfits
  rw [replayed_cons] at hfits
  exact (List.cons.inj hfits).1

/-! ## The invariant -/

/-- What holds of every store. -/
structure Store.Sound (store : Store) : Prop where
  keyed : store.Keyed
  destroys : ∀ row ∈ store.pending, row.held = true → row.destroy = true
  last : ∀ id, (store.pending.of id).Pairwise fun a _ => a.destroy = false
  fitting : ∀ row ∈ store.pending, row.Fitting
  agrees : ∀ id header, store.emails id = some header →
    Agrees header.state (store.pending.of id)

theorem Store.sound_empty : Store.empty.Sound where
  keyed := Store.keyed_empty
  destroys _ h := absurd h List.not_mem_nil
  last _ := List.Pairwise.nil
  fitting _ h := absurd h List.not_mem_nil
  agrees _ _ h := nomatch h

/-- Rows that follow keep a destroy last. -/
theorem last_of_follows {log before : Log} (hf : log.Follows before)
    (h : ∀ id, (before.of id).Pairwise fun a _ => a.destroy = false) (id : EmailId) :
    (log.of id).Pairwise fun a _ => a.destroy = false := by
  refine Log.of_sorted.imp_of_mem fun {a b} ha hb hab => ?_
  obtain ⟨ha, haid⟩ := Log.mem_of.1 ha
  obtain ⟨hb, hbid⟩ := Log.mem_of.1 hb
  obtain ⟨a', ha', hfa⟩ := hf a ha
  obtain ⟨b', hb', hfb⟩ := hf b hb
  rw [hfa.destroy]
  have hlt : a'.seq < b'.seq := by
    rw [← hfa.seq, ← hfb.seq]
    exact hab
  exact sorted_related (R := fun a _ : PendingRow => a.destroy = false) Log.of_sorted (h id)
    (Log.mem_of.2 ⟨ha', hfa.id.symm.trans haid⟩) (Log.mem_of.2 ⟨hb', hfb.id.symm.trans hbid⟩) hlt

/-- The rows of an email are the ones that are not held, then the held ones. -/
theorem Store.Sound.of_split (h : store.Sound) (id : EmailId) :
    store.pending.of id = (store.pending.of id).filter (fun row => !row.held) ++
      (store.pending.of id).filter fun row => row.held := by
  have hlast := h.last id
  have hheld : ∀ row ∈ store.pending.of id, row.held = true → row.destroy = true :=
    fun row hr => h.destroys row (Log.mem_of.1 hr).1
  generalize store.pending.of id = l at hlast hheld
  induction l with
  | nil => rfl
  | cons row l ih =>
    obtain ⟨hrow, hl⟩ := List.pairwise_cons.1 hlast
    cases hc : row.held with
    | false =>
      rw [List.filter_cons_of_pos (by simp [hc]), List.filter_cons_of_neg (by simp [hc]),
        List.cons_append, ← ih hl fun r hr => hheld r (List.mem_cons_of_mem _ hr)]
    | true =>
      have hd := hheld row List.mem_cons_self hc
      obtain rfl : l = [] := by
        refine List.eq_nil_iff_forall_not_mem.2 fun b hb => ?_
        rw [hrow b hb] at hd
        cases hd
      simp [hc]

/-! ## Every operation -/

section Operations

variable {batch : Batch} {kind : LandingKind}

/-- A batch that leaves the log alone. -/
theorem Batch.lays_of_quiet (hp : batch.pending = {}) (hc : ¬ batch.clears .pending) :
    batch.Lays store where
  put := by rw [hp]
  keeps := hc
  gone row _ hr := by
    rw [hp] at hr
    exact absurd hr List.not_mem_nil

/-- The rows of an email whose header stays after a landing. -/
theorem landAs_refits_of_stays (h : batch.Lays store) {header : EmailHeader}
    (hstays : (landAs store batch kind).1.emails id = some header) :
    List.Forall₂ PendingRow.Refits ((landAs store batch kind).1.pending.of id)
      (store.pending.of id) := by
  have hall : (store.pending.of id).filter (fun row => row.seq ∉ batch.pending.remove) =
      store.pending.of id := by
    refine List.filter_eq_self.2 fun row hr => decide_eq_true fun hin => ?_
    obtain ⟨hlog, rfl⟩ := Log.mem_of.1 hr
    obtain ⟨hremove, hheads, -⟩ := h.gone row hlog hin
    rw [landAs_emails, Change.landing_eq_none.2 hheads, if_pos (.inl hremove)] at hstays
    cases hstays
  have hrefits : List.Forall₂ PendingRow.Refits ((landAs store batch kind).1.pending.of id)
      ((store.pending.of id).filter fun row => row.seq ∉ batch.pending.remove) := landAs_refits h
  rwa [hall] at hrefits

theorem Store.Sound.landAs (h : store.Sound) (hl : batch.Lays store) :
    (landAs store batch kind).1.Sound where
  keyed := by
    simp only [Cache.landAs]
    split <;> exact h.keyed.commit
  destroys row hr hheld := by
    have hfollows : (Cache.landAs store batch kind).1.pending.Follows store.pending :=
      landAs_follows hl.put
    obtain ⟨held, hm, hf⟩ := hfollows row hr
    rw [hf.destroy]
    exact h.destroys held hm (hf.released hheld)
  last := last_of_follows (landAs_follows hl.put) h.last
  fitting row hr := by
    rw [landAs_pending hl] at hr
    rcases Sequence.of_mem_putAll hr with hr | hr
    · have hfitted : ∃ rows s, row ∈ (replayed s rows).2 := by
        rw [fittedBy_eq] at hr
        rcases List.mem_append.1 hr with hr | hr
        · obtain ⟨header, -, hr⟩ := mem_relaidHeaders.1 hr
          exact ⟨_, _, mem_of_mem_refitted hr⟩
        · obtain ⟨thread, -, id, member, -, -, hr⟩ := mem_relaidThreads.1 hr
          exact ⟨_, _, mem_of_mem_refitted hr⟩
      obtain ⟨rows, s, hr⟩ := hfitted
      obtain ⟨held, -, t, rfl⟩ := exists_fitted hr
      exact fitting_fitted
    · exact h.fitting row (Sequence.mem_remove.1 hr).1
  agrees id header hh := by
    have hrefits := landAs_refits_of_stays hl hh
    refine Agrees.follows ?_ (hrefits.imp fun _ _ h => h.toFollows)
    rw [landAs_emails] at hh
    cases hlanding : batch.emails.landing EmailHeader.id id with
    | some landed =>
      rw [hlanding, Option.map_some, Option.some_or] at hh
      obtain rfl := Option.some.inj hh
      obtain ⟨-, rfl⟩ := Change.landing_eq_some hlanding
      exact agrees_replayed _ _
    | none =>
      rw [hlanding, Option.map_none, Option.none_or] at hh
      split at hh
      · cases hh
      · exact h.agrees id header hh

/-- A commit that leaves the log and the headers alone. -/
theorem Store.Sound.quiet (h : store.Sound) (hp : batch.pending = {}) (hc : batch.reset = [])
    (he : batch.emails = {}) : (store.commit batch).Sound := by
  have hpending : (store.commit batch).pending = store.pending := by
    show ((if batch.clears .pending then Sequence.empty else store.pending).remove
      batch.pending.remove).putAll batch.pending.put = store.pending
    rw [hp, if_neg (by rw [Batch.clears, hc]; exact List.not_mem_nil)]
    exact Sequence.remove_nil
  have hemails : ∀ id, (store.commit batch).emails id = store.emails id := by
    intro id
    rw [commit_emails, he]
    simp [Change.landing, Batch.clears, hc]
  refine ⟨h.keyed.commit, ?_, ?_, ?_, ?_⟩
  · rw [hpending]
    exact h.destroys
  · rw [hpending]
    exact h.last
  · rw [hpending]
    exact h.fitting
  · intro id header hh
    rw [hemails] at hh
    rw [hpending]
    exact h.agrees id header hh

theorem Store.Sound.mutateMany (h : store.Sound) {mutations : List Mutation}
    {lease : Option String} : (mutateMany store mutations lease).1.Sound where
  keyed := mutateMany_keyed h.keyed
  destroys row hr hheld := by
    have hr : row ∈ (Cache.mutateMany store mutations lease).1.pending.of row.id :=
      Log.mem_of.2 ⟨hr, rfl⟩
    rw [mutateMany_rows] at hr
    rcases List.mem_append.1 hr with hr | hr
    · exact h.destroys row (Log.mem_of.1 hr).1 hheld
    · rw [← (adds_added.row row hr).2.1]
      exact hheld
  last id := by
    rw [mutateMany_rows]
    refine List.pairwise_append.2 ⟨h.last id, adds_added.last, fun a ha b hb => ?_⟩
    by_contra hd
    have hadds : Adds store (mutateKnown store mutations id) id
      (added store mutations lease id) := adds_added
    rw [hadds.spared ⟨a, ha, by simpa using hd⟩] at hb
    exact List.not_mem_nil hb
  fitting row hr := by
    have hr : row ∈ (Cache.mutateMany store mutations lease).1.pending.of row.id :=
      Log.mem_of.2 ⟨hr, rfl⟩
    rw [mutateMany_rows] at hr
    rcases List.mem_append.1 hr with hr | hr
    · exact h.fitting row (Log.mem_of.1 hr).1
    · cases hk : mutateKnown store mutations row.id with
      | none =>
        rw [adds_added.unknown hk] at hr
        exact absurd hr List.not_mem_nil
      | some k => exact (adds_added.fits k hk).fitting hr
  agrees id header hh := by
    rw [mutateMany_email h.keyed] at hh
    obtain ⟨held, hheld, rfl⟩ := Option.map_eq_some_iff.1 hh
    rw [mutateMany_rows]
    exact (h.agrees id held hheld).append

/-- The rows of an email after a release. -/
theorem releaseWhere_rows {picked : PendingRow → Bool} :
    (releaseWhere store picked).1.pending.of id = (store.pending.of id).map fun row =>
      if row.held && picked row then { row with held := false } else row := by
  have hrevise : (releaseWhere store picked).1.pending = store.pending.revise
      (fun row => if row.held && picked row then { row with held := false } else row)
      (fun row => by split <;> rfl) :=
    Sequence.ext_mem fun row => mem_releaseWhere.trans Sequence.mem_revise.symm
  rw [hrevise, Log.of_revise]
  intro row _
  split <;> rfl

theorem releaseWhere_change {picked : PendingRow → Bool} :
    ((releaseWhere store picked).1.pending.of id).map PendingRow.change =
      (store.pending.of id).map PendingRow.change := by
  rw [releaseWhere_rows, List.map_map]
  refine List.map_congr_left fun row _ => ?_
  simp only [Function.comp_apply]
  split <;> rfl

theorem releaseWhere_emails {picked : PendingRow → Bool} :
    (releaseWhere store picked).1.emails = store.emails := by
  simp only [releaseWhere]
  split
  · rfl
  · funext id
    rw [commit_emails]
    simp [Change.landing, Batch.clears]

theorem releaseWhere_threads {picked : PendingRow → Bool} :
    (releaseWhere store picked).1.threads = store.threads := by
  simp only [releaseWhere]
  split
  · rfl
  · funext threadId
    rw [commit_threads]
    simp [Change.landing, Batch.clears]

/-- A step that keeps the rows under their ids and changes no row but in being sent or released. -/
theorem Store.Sound.same {next : Store} (h : store.Sound) (he : next.emails = store.emails)
    (ht : next.threads = store.threads) (hf : next.pending.Follows store.pending)
    (hc : ∀ id, (next.pending.of id).map PendingRow.change =
      (store.pending.of id).map PendingRow.change) : next.Sound where
  keyed := ⟨he ▸ h.keyed.email, ht ▸ h.keyed.thread⟩
  destroys row hr hheld := by
    obtain ⟨held, hm, hf⟩ := hf row hr
    rw [hf.destroy]
    exact h.destroys held hm (hf.released hheld)
  last := last_of_follows hf h.last
  fitting row hr := by
    have hin : row.change ∈ (store.pending.of row.id).map PendingRow.change := by
      rw [← hc]
      exact List.mem_map_of_mem (Log.mem_of.2 ⟨hr, rfl⟩)
    obtain ⟨held, hm, hsame⟩ := List.mem_map.1 hin
    exact fitting_change hsame.symm (h.fitting held (Log.mem_of.1 hm).1)
  agrees id header hh := (h.agrees id header (he ▸ hh)).change (hc id)

theorem Store.Sound.releaseWhere (h : store.Sound) {picked : PendingRow → Bool} :
    (releaseWhere store picked).1.Sound :=
  h.same releaseWhere_emails releaseWhere_threads releaseWhere_follows fun _ => releaseWhere_change

theorem Store.Sound.marked (h : store.Sound) {limit now : Nat} : (marked store limit now).Sound :=
  h.same marked_emails marked_threads marked_follows fun _ => marked_change

theorem Store.Sound.takeBack (h : store.Sound) {leaving : List Nat} :
    (takeBack store leaving).Sound where
  keyed := takeBack_keyed h.keyed
  destroys row hr hheld := by
    obtain ⟨held, hm, hf, -⟩ := takeBack_refits hr
    rw [hf.destroy]
    exact h.destroys held hm (hf.released hheld)
  last := last_of_follows takeBack_follows h.last
  fitting row hr := by
    have hr : row ∈ (Cache.takeBack store leaving).pending.of row.id := Log.mem_of.2 ⟨hr, rfl⟩
    rw [takeBack_rows] at hr
    split at hr
    · obtain ⟨held, -, t, rfl⟩ := exists_fitted hr
      exact fitting_fitted
    · exact h.fitting row (Log.mem_of.1 (List.mem_filter.1 hr).1).1
  agrees id header hh := by
    rw [takeBack_email h.keyed] at hh
    obtain ⟨held, hheld, rfl⟩ := Option.map_eq_some_iff.1 hh
    rw [takeBack_rows]
    cases hk : takenKnown store leaving id with
    | some k =>
      refine (agrees_replayed _ _).follows ?_
      exact (forall_refits_replayed _ _).imp fun _ _ h => h.toFollows
    | none =>
      -- A header not known among the rows that leave has none of them.
      have hnone : ∀ row ∈ store.pending.of id, row.seq ∉ leaving := by
        intro row hr hin
        have hknown := knownEmails_of_header hheld (mem_takenRefs.2 ⟨row, hr, hin⟩)
        rw [show (knownEmails store (takenRefs store leaving)).get id = none from hk] at hknown
        cases hknown
      simp only [List.filter_eq_self.2 fun row hr => decide_eq_true (hnone row hr)]
      exact h.agrees id held hheld

theorem Store.Sound.dropCanceled (h : store.Sound) : (dropCanceled store).Sound where
  keyed := by
    refine ⟨?_, ?_⟩
    · rw [dropCanceled_emails]
      exact h.keyed.email
    · rw [dropCanceled_threads]
      exact h.keyed.thread
  destroys row hr hheld := by
    obtain ⟨held, hm, hf⟩ := dropCanceled_follows row hr
    rw [hf.destroy]
    exact h.destroys held hm (hf.released hheld)
  last := last_of_follows dropCanceled_follows h.last
  fitting row hr := by
    have hr : row ∈ (Cache.dropCanceled store).pending.of row.id := Log.mem_of.2 ⟨hr, rfl⟩
    rw [dropCanceled_rows] at hr
    split at hr
    · exact absurd hr List.not_mem_nil
    · exact h.fitting row (Log.mem_of.1 hr).1
  agrees id header hh := by
    rw [dropCanceled_emails] at hh
    rw [dropCanceled_rows]
    split
    · exact agrees_nil
    · exact h.agrees id header hh

section Settle

variable {sent : List PendingRow} {verdict : EmailId → Verdict}

/-- Rows a round sent: rows of the log, of each email all that are not held. -/
structure SentFrom (store : Store) (sent : List PendingRow) : Prop where
  rows : ∀ row ∈ sent, ∃ held ∈ store.pending, row.seq = held.seq ∧ row.id = held.id
  all : ∀ row ∈ store.pending, row.id ∈ pendingIds sent →
    (row.seq ∈ (ofEmail sent row.id).map PendingRow.seq ↔ row.held = false)

/-- An acknowledged email keeps its held rows. -/
theorem settle_rows_acknowledged (hsent : SentFrom store sent)
    (hv : verdict id = .acknowledged) (hid : id ∈ pendingIds sent) :
    (settle store sent verdict).pending.of id =
      ((takeBack store (takenBy sent verdict)).pending.of id).filter fun row => row.held := by
  rw [settle_rows hsent.rows]
  refine List.filter_congr fun row hr => ?_
  obtain ⟨hlog, rfl⟩ := Log.mem_of.1 hr
  obtain ⟨held, hm, hf, -⟩ := takeBack_refits hlog
  have hall := hsent.all held hm (hf.id ▸ hid)
  rw [← hf.seq, ← hf.id, ← hf.kept] at hall
  have hiff : settledAway sent verdict row ↔ row.held = false := by
    unfold settledAway
    rw [hv, hall]
    simp
  cases hc : row.held with
  | false => exact decide_eq_false (not_not.2 (hiff.2 hc))
  | true =>
    refine decide_eq_true fun haway => ?_
    rw [hiff.1 haway] at hc
    cases hc

/-- An email that is neither acknowledged nor gone keeps its rows. -/
theorem settle_rows_other (hsent : SentFrom store sent)
    (hv : id ∈ pendingIds sent → verdict id ≠ .acknowledged ∧ verdict id ≠ .gone) :
    (settle store sent verdict).pending.of id =
      (takeBack store (takenBy sent verdict)).pending.of id := by
  rw [settle_rows hsent.rows]
  refine List.filter_eq_self.2 fun row hr => decide_eq_true ?_
  obtain ⟨-, rfl⟩ := Log.mem_of.1 hr
  rintro (⟨hgone, hin⟩ | ⟨hack, hin⟩)
  · exact (hv hin).2 hgone
  · obtain ⟨other, ho, -⟩ := List.mem_map.1 hin
    obtain ⟨hother, hid⟩ := mem_ofEmail.1 ho
    exact (hv (log_mem_pendingIds.2 ⟨other, hother, hid⟩)).1 hack

theorem Store.Sound.settle (h : store.Sound) (hsent : SentFrom store sent) :
    (settle store sent verdict).Sound where
  keyed := settle_keyed h.keyed
  destroys row hr hheld := by
    obtain ⟨held, hm, hf⟩ := settle_follows row hr
    rw [hf.destroy]
    exact h.destroys held hm (hf.released hheld)
  last := last_of_follows settle_follows h.last
  fitting row hr := by
    have hr : row ∈ (Cache.settle store sent verdict).pending.of row.id := Log.mem_of.2 ⟨hr, rfl⟩
    rw [settle_rows hsent.rows] at hr
    exact h.takeBack.fitting row (Log.mem_of.1 (List.mem_filter.1 hr).1).1
  agrees id header hh := by
    rw [settle_email] at hh
    split at hh
    · cases hh
    rename_i hgone
    have hagrees := h.takeBack.agrees id header hh
    by_cases hv : verdict id = .acknowledged ∧ id ∈ pendingIds sent
    · rw [settle_rows_acknowledged hsent hv.1 hv.2]
      rw [h.takeBack.of_split id] at hagrees
      exact hagrees.suffix
    · rw [settle_rows_other hsent]
      · exact hagrees
      · exact fun hin => ⟨fun hack => hv ⟨hack, hin⟩, fun hg => hgone (mem_goneIn.2 ⟨hin, hg⟩)⟩

end Settle

/-- What a flush round sends. -/
theorem sentFrom_sentRows {limit now : Nat} :
    SentFrom (marked store limit now) (sentRows store limit now) where
  rows row hr := by
    have hr : row ∈ ofEmail (sentRows store limit now) row.id := mem_ofEmail.2 ⟨hr, rfl⟩
    rw [ofEmail_sentRows] at hr
    split at hr
    · rename_i hsends
      obtain ⟨held, hm, hrow⟩ := List.mem_map.1 hr
      obtain ⟨hm, hheld⟩ := List.mem_filter.1 hm
      have hmarked : mark store limit now held ∈ (marked store limit now).pending.of row.id := by
        rw [marked_rows]
        exact List.mem_map_of_mem hm
      refine ⟨_, (Log.mem_of.1 hmarked).1, ?_, (Log.mem_of.1 hmarked).2.symm⟩
      have hseq : (mark store limit now held).seq = held.seq := by
        unfold mark
        split <;> rfl
      rw [hseq, ← hrow]
    · exact absurd hr List.not_mem_nil
  all row hr hin := by
    obtain ⟨sent, hsent, hid⟩ := log_mem_pendingIds.1 hin
    have hr : row ∈ (marked store limit now).pending.of row.id := Log.mem_of.2 ⟨hr, rfl⟩
    rw [marked_rows] at hr
    obtain ⟨held, hm, hrow⟩ := List.mem_map.1 hr
    have hsends : sends store limit row.id = true := by
      have hs : sent ∈ ofEmail (sentRows store limit now) row.id := mem_ofEmail.2 ⟨hsent, hid⟩
      rw [ofEmail_sentRows] at hs
      split at hs
      · assumption
      · exact absurd hs List.not_mem_nil
    have hsame : row.seq = held.seq ∧ row.held = held.held := by
      rw [← hrow]
      unfold mark
      split <;> exact ⟨rfl, rfl⟩
    rw [ofEmail_sentRows, if_pos hsends, List.map_map, hsame.1, hsame.2]
    constructor
    · intro hseq
      obtain ⟨other, ho, hseq⟩ := List.mem_map.1 hseq
      obtain ⟨ho, hnot⟩ := List.mem_filter.1 ho
      rw [store.pending.unique (Log.mem_of.1 ho).1 (Log.mem_of.1 hm).1 hseq] at hnot
      simpa using hnot
    · intro hnot
      exact List.mem_map.2 ⟨held, List.mem_filter.2 ⟨hm, by simp [hnot]⟩, rfl⟩

theorem Store.Sound.flushPending (h : store.Sound) {turn : FlushTurn} :
    (flushPending store turn).1.Sound := by
  rcases flushPending_cases store turn with heq | ⟨limit, -, -, ⟨-, heq⟩ | ⟨-, heq⟩⟩
  · rw [heq]
    exact h.dropCanceled
  · rw [heq]
    exact h.dropCanceled.marked
  · rw [heq]
    exact h.dropCanceled.marked.settle sentFrom_sentRows

/-! ## Landings -/

theorem roundOf_quiet (store : Store) (parsed : Parsed) :
    (roundOf store parsed).batch.pending = {} := by
  obtain ⟨mailbox, email, thread⟩ := parsed
  cases mailbox <;> cases email <;> cases thread <;> rfl

/-- A round empties the emails, threads and lists together or nothing. -/
theorem roundOf_reset (store : Store) (parsed : Parsed) :
    (roundOf store parsed).batch.reset = [] ∨
      (roundOf store parsed).batch.reset = [.emails, .threads, .queries] := by
  obtain ⟨mailbox, email, thread⟩ := parsed
  cases mailbox <;> cases email <;> cases thread <;> first | exact .inl rfl | exact .inr rfl

theorem roundOf_lays {parsed : Parsed} : (roundOf store parsed).batch.Lays store := by
  refine Batch.lays_of_quiet (roundOf_quiet store parsed) ?_
  unfold Batch.clears
  rcases roundOf_reset store parsed with h | h
  · rw [h]
    exact List.not_mem_nil
  · rw [h]
    decide

theorem fetched_lays {fetched : Fetched} : (fetched.batch store).Lays store :=
  Batch.lays_of_quiet rfl List.not_mem_nil

theorem goneOf_lays {ids : List EmailId} {named : List ThreadId} :
    (goneOf store ids named).Lays store where
  put := rfl
  keeps := List.not_mem_nil
  gone row hr hin := by
    obtain ⟨other, ho, hseq⟩ := List.mem_map.1 hin
    obtain ⟨hother, hid⟩ := List.mem_filter.1 ho
    rw [store.pending.unique hother hr hseq, decide_eq_true_eq] at hid
    refine ⟨hid, fun _ h => absurd h List.not_mem_nil, fun thread ht => ?_⟩
    obtain ⟨held, -, rfl⟩ := List.mem_map.1 (List.mem_filter.1 ht).1
    simp [without, hid]

theorem Store.Sound.apply (h : store.Sound) {parsed : Parsed}
    {tree : Option (List Mailbox × String)} : (apply store parsed tree).1.Sound := by
  have hlanded : (landRound store (roundOf store parsed).batch).1.Sound := h.landAs roundOf_lays
  simp only [Cache.apply]
  split
  · split
    · exact hlanded
    · simp only [dropListsWithoutMailbox]
      rename_i list state
      have hhydrated : (hydrateMailboxes (landRound store (roundOf store parsed).batch).1 list
          state).Sound := hlanded.landAs (Batch.lays_of_quiet rfl (by simp [Batch.clears]))
      split
      · exact hhydrated
      · exact hhydrated.quiet rfl rfl rfl
  · exact hlanded

theorem Store.Sound.jobRound (h : store.Sound) {progress : JobProgress} {turn : JobTurn} :
    (jobRound store progress turn).1.Sound := by
  rw [jobRound_heeded]
  cases heeded progress turn with
  | none => exact h
  | some answer =>
    have hgone : (if answer.destroyed = [] then store
        else land store (goneOf store answer.destroyed [])).Sound := by
      split
      · exact h
      · exact h.landAs goneOf_lays
    have hlanded : (landUpdated (if answer.destroyed = [] then store
        else land store (goneOf store answer.destroyed [])) answer.updated
          (patchOf progress.job)).Sound :=
      hgone.landAs (Batch.lays_of_quiet rfl List.not_mem_nil)
    simp only [Option.elim_some, landWrite, landMailboxPass]
    split
    · exact hlanded
    · exact hlanded.apply

/-- **Every operation keeps the store sound**, whatever the server answers. -/
theorem Store.Sound.after (h : store.Sound) (step : Step) : (store.after step).Sound := by
  cases step with
  | mutate mutations lease => exact h.mutateMany
  | release seqs => exact h.releaseWhere
  | lapse live => exact h.releaseWhere
  | drop seqs => exact h.takeBack
  | flush turn => exact h.flushPending
  | fetch fetched => exact h.landAs fetched_lays
  | round parsed tree => exact h.apply
  | job progress turn => exact h.jobRound

end Operations

end Huliho.Cache
