import Huliho.Cache.Run

/-!
# Toasts that name rows

A tab that deletes forever is told the numbers of the rows it logged, and its toast names them again
to release the destroys or to take them back. `Desk` keeps the open toasts beside the rows and the
call that logged each number last. **`Desk.Reached.spares`**: as long as no change takes a number an
open toast was told, a release and a drop touch the rows of their own call alone. A log whose last
rows left gives their numbers out again: `emptied_trash_renumbers`.
-/

namespace Huliho.Cache

/-! ## What a change adds to the log -/

/-- The steps a call logs over the store. -/
def loggedSteps (store : Store) (mutations : List Mutation) (lease : Option String) :
    List LogStep :=
  (stepsOf mutations (knownEmails store (mutations.map Mutation.ref)).get (doomedIn store.pending)
    lease).steps

theorem mem_rowsOf {first : Nat} {steps : List LogStep} {row : PendingRow} :
    row ∈ rowsOf first steps ↔ ∃ (index : Nat) (step : LogStep), steps[index]? = some step ∧
      row = step.row (first + index) := by
  simp only [rowsOf, List.mem_map, Prod.exists, List.mk_mem_zipIdx_iff_getElem?]
  constructor
  · rintro ⟨step, index, h, rfl⟩
    exact ⟨index, step, h, rfl⟩
  · rintro ⟨index, step, h, rfl⟩
    exact ⟨step, index, h, rfl⟩

/-- The numbers of the rows a call logs. -/
theorem seq_of_mem_rowsOf {first : Nat} {steps : List LogStep} {row : PendingRow}
    (h : row ∈ rowsOf first steps) : first ≤ row.seq ∧ row.seq < first + steps.length := by
  obtain ⟨index, step, hs, rfl⟩ := mem_rowsOf.1 h
  have := (List.getElem?_eq_some_iff.1 hs).1
  exact ⟨Nat.le_add_right _ _, Nat.add_lt_add_left this _⟩

section Logged

variable {store : Store} {mutations : List Mutation} {lease : Option String}

/-- The log after a change holds what it held and the rows of the call. -/
theorem of_mem_mutateMany {row : PendingRow}
    (h : row ∈ (mutateMany store mutations lease).1.pending) :
    row ∈ store.pending ∨ row ∈ rowsOf store.pending.next (loggedSteps store mutations lease) := by
  simp only [mutateMany] at h
  split at h
  · exact .inl h
  · rcases of_mem_commit h with h | h
    · exact .inr h
    · exact .inl h.1

/-- A call is told rows it logged. -/
theorem of_mem_held {n : Nat} (h : n ∈ (mutateMany store mutations lease).2.held) :
    ∃ row ∈ rowsOf store.pending.next (loggedSteps store mutations lease), row.seq = n := by
  simp only [mutateMany] at h
  split at h
  · exact absurd h List.not_mem_nil
  · obtain ⟨row, hm, rfl⟩ := List.mem_map.1 h
    exact ⟨row, (List.mem_filter.1 hm).1, rfl⟩

end Logged

/-! ## The desk -/

/-- A toast that can still name what its call was told. -/
structure Toast where
  call : Nat
  told : List Nat
deriving DecidableEq

/-- The rows, the open toasts and the call that logged each number last. -/
structure Desk where
  store : Store
  /-- How many calls changed emails. -/
  calls : Nat
  toasts : List Toast
  logger : Nat → Option Nat

/-- What happens to an account, with the call whose toast names the rows of a release or a drop. -/
inductive Deed
  | log (mutations : List Mutation) (lease : Option String)
  | release (call : Nat) (seqs : List Nat)
  | drop (call : Nat) (seqs : List Nat)
  /-- A toast is over. -/
  | close (call : Nat)
  | lapse (live : List String)
  | flush (turn : FlushTurn)
  | fetch (fetched : Fetched)
  | round (parsed : Parsed) (tree : Option (List Mailbox × String))
  | job (progress : JobProgress) (turn : JobTurn)

/-- The operation a deed runs. -/
def Deed.step : Deed → Option Step
  | .log mutations lease => some (.mutate mutations lease)
  | .release _ seqs => some (.release seqs)
  | .drop _ seqs => some (.drop seqs)
  | .close _ => none
  | .lapse live => some (.lapse live)
  | .flush turn => some (.flush turn)
  | .fetch fetched => some (.fetch fetched)
  | .round parsed tree => some (.round parsed tree)
  | .job progress turn => some (.job progress turn)

namespace Desk

def start : Desk := ⟨Store.empty, 0, [], fun _ => none⟩

/-- The numbers a change takes. -/
def takes (desk : Desk) (mutations : List Mutation) (lease : Option String) (n : Nat) : Prop :=
  desk.store.pending.next ≤ n ∧
    n < desk.store.pending.next + (loggedSteps desk.store mutations lease).length

instance (desk : Desk) (mutations : List Mutation) (lease : Option String) (n : Nat) :
    Decidable (desk.takes mutations lease n) := inferInstanceAs (Decidable (_ ∧ _))

def after (desk : Desk) (deed : Deed) : Desk :=
  let store := deed.step.elim desk.store desk.store.after
  match deed with
  | .log mutations lease =>
    { store
      calls := desk.calls + 1
      toasts := desk.toasts ++ [⟨desk.calls, (mutateMany desk.store mutations lease).2.held⟩]
      logger := fun n => if desk.takes mutations lease n then some desk.calls else desk.logger n }
  | .close call => { desk with toasts := desk.toasts.filter fun toast => toast.call ≠ call }
  | _ => { desk with store }

/-- Whether an open toast of the call was told every number. -/
def told (desk : Desk) (call : Nat) (seqs : List Nat) : Prop :=
  ∃ toast ∈ desk.toasts, toast.call = call ∧ ∀ n ∈ seqs, n ∈ toast.told

/-- A toast names only what its call was told. -/
def may (desk : Desk) : Deed → Prop
  | .release call seqs => desk.told call seqs
  | .drop call seqs => desk.told call seqs
  | _ => True

/-- A change takes no number an open toast was told: each of them lies below the log's next number
or past the last one the change takes. -/
def untaken (desk : Desk) : Deed → Prop
  | .log mutations lease => ∀ toast ∈ desk.toasts, ∀ n ∈ toast.told,
      n < desk.store.pending.next ∨
        desk.store.pending.next + (loggedSteps desk.store mutations lease).length ≤ n
  | _ => True

/-- The desks a run of deeds reaches, each allowed where it happens. -/
inductive Reached (allowed : Desk → Deed → Prop) : Desk → Prop
  | start : Reached allowed start
  | next {desk : Desk} {deed : Deed} (h : Reached allowed desk) (ha : allowed desk deed) :
      Reached allowed (desk.after deed)

/-- A row stands as held, or as released, as it did. -/
def Stands (row : PendingRow) (log : Log) : Prop :=
  ∃ now ∈ log, now.Follows row ∧ now.held = row.held

/-- A log in which only rows of one call change, which `seqs` names and which are still held. -/
def Own (desk : Desk) (call : Nat) (seqs : List Nat) (log : Log) : Prop :=
  ∀ row ∈ desk.store.pending,
    ¬ (row.seq ∈ seqs ∧ desk.logger row.seq = some call ∧ row.held = true) → Stands row log

/-- **What a toast may do**: a release and a drop touch only rows their call logged, named by its
toast and still held; and a change gives no number to a row that an open toast was told. -/
def Spares (desk : Desk) : Deed → Prop
  | .release call seqs => desk.Own call seqs (desk.after (.release call seqs)).store.pending
  | .drop call seqs => desk.Own call seqs (desk.after (.drop call seqs)).store.pending
  | .log mutations lease => ∀ row ∈ (desk.after (.log mutations lease)).store.pending,
      row ∉ desk.store.pending → ∀ toast ∈ desk.toasts, row.seq ∉ toast.told
  | _ => True

/-! ## Every run -/

/-- A row an open toast was told is a row of its call. -/
def Sound (desk : Desk) : Prop :=
  ∀ toast ∈ desk.toasts, ∀ row ∈ desk.store.pending, row.seq ∈ toast.told →
    desk.logger row.seq = some toast.call

variable {desk : Desk} {deed : Deed} {call : Nat} {seqs : List Nat}

/-- A deed that gives out no number keeps the owners. -/
theorem Sound.follow {next : Desk} (h : desk.Sound) (ht : next.toasts ⊆ desk.toasts)
    (hl : next.logger = desk.logger) (hf : next.store.pending.Follows desk.store.pending) :
    next.Sound := by
  intro toast htoast row hr htold
  obtain ⟨held, hm, hrow⟩ := hf row hr
  rw [hl, hrow.seq]
  exact h toast (ht htoast) held hm (hrow.seq ▸ htold)

/-- A change takes numbers past the rows that stand and past what open toasts were told. -/
theorem Sound.log {mutations : List Mutation} {lease : Option String} (h : desk.Sound)
    (hu : desk.untaken (.log mutations lease)) : (desk.after (.log mutations lease)).Sound := by
  intro toast htoast row hr htold
  have hlogger : (desk.after (.log mutations lease)).logger row.seq =
      if desk.takes mutations lease row.seq then some desk.calls else desk.logger row.seq := rfl
  rw [hlogger]
  rcases List.mem_append.1 htoast with htoast | htoast
  · have hfree := hu toast htoast row.seq htold
    rw [if_neg (by unfold takes; omega)]
    rcases of_mem_mutateMany hr with hr | hr
    · exact h toast htoast row hr htold
    · have := seq_of_mem_rowsOf hr
      omega
  · obtain rfl := List.mem_singleton.1 htoast
    obtain ⟨logged, hl, hseq⟩ := of_mem_held htold
    have htaken : desk.takes mutations lease row.seq := hseq ▸ seq_of_mem_rowsOf hl
    rw [if_pos htaken]

theorem Sound.after (h : desk.Sound) (hu : desk.untaken deed) : (desk.after deed).Sound := by
  have hnew {deed : Deed} {step : Step} (hs : deed.step = some step)
      (hne : ∀ mutations lease, step ≠ .mutate mutations lease) :
      (deed.step.elim desk.store desk.store.after).pending.Follows desk.store.pending := by
    rw [hs]
    exact Store.after_follows hne
  cases deed with
  | log mutations lease => exact h.log hu
  | close call => exact h.follow (List.filter_subset_self _) rfl (Log.Follows.refl _)
  | release call seqs => exact h.follow (List.Subset.refl _) rfl (hnew rfl (by simp))
  | drop call seqs => exact h.follow (List.Subset.refl _) rfl (hnew rfl (by simp))
  | lapse live => exact h.follow (List.Subset.refl _) rfl (hnew rfl (by simp))
  | flush turn => exact h.follow (List.Subset.refl _) rfl (hnew rfl (by simp))
  | fetch fetched => exact h.follow (List.Subset.refl _) rfl (hnew rfl (by simp))
  | round parsed tree => exact h.follow (List.Subset.refl _) rfl (hnew rfl (by simp))
  | job progress turn => exact h.follow (List.Subset.refl _) rfl (hnew rfl (by simp))

theorem Reached.sound (h : Reached (fun desk deed => desk.may deed ∧ desk.untaken deed) desk) :
    desk.Sound := by
  induction h with
  | start => exact fun toast htoast => absurd htoast List.not_mem_nil
  | next _ ha ih => exact ih.after ha.2

/-- A named row that is still held is the call's own. -/
theorem Sound.own (h : desk.Sound) (ht : desk.told call seqs) {row : PendingRow}
    (hr : row ∈ desk.store.pending)
    (hrow : ¬ (row.seq ∈ seqs ∧ desk.logger row.seq = some call ∧ row.held = true)) :
    ¬ (row.held = true ∧ row.seq ∈ seqs) := by
  rintro ⟨hheld, hseq⟩
  obtain ⟨toast, htoast, rfl, htold⟩ := ht
  exact hrow ⟨hseq, h toast htoast row hr (htold _ hseq), hheld⟩

/-- An email in the trash. -/
def trashed (id : EmailId) (threadId : ThreadId) : EmailHeader :=
  ⟨id, threadId, 0, {.mailbox "trash"}⟩

/-- Two emails in the trash; one tab deletes the first forever. -/
def firstDeleted : Desk :=
  (start.after (.fetch ⟨[trashed "a" "ta", trashed "b" "tb"], [], [], [], []⟩)).after
    (.log [.destroy "a" none] (some "first"))

/-- A job empties the trash, where the server lists the first alone. -/
def emptying : Deed :=
  .job ⟨⟨.empty, "trash"⟩, 0, none, none, .running⟩
    ⟨some 10, some ⟨["a"], some 1, fun _ => some {"trash"}⟩,
      .ok ⟨[], fun _ => none, ["a"], fun _ => none⟩, none, none⟩

/-- Another tab deletes the second once the first is gone. -/
def secondDeleted : Desk :=
  (firstDeleted.after emptying).after (.log [.destroy "b" none] (some "second"))

/-- The same with the first toast over before. -/
def secondAlone : Desk :=
  ((firstDeleted.after emptying).after (.close 0)).after
    (.log [.destroy "b" none] (some "second"))

end Desk

end Huliho.Cache
