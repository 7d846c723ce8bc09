import Mathlib.Data.List.Sort
import Mathlib.Data.String.Basic
import Huliho.Store.Types

/-!
# The log and the state counter

`changes.rs`: the counter of an account (`stateOf`, `nextSequence`), the rows a write logs under
its sequence (`log`), what the log forgets (`prune`) and what it reads back (`changesSince`).

`entryAt t s x` is the row the log holds for an object under one sequence. A write opens a fresh
sequence, so under it the log starts empty (`LogBelow.entryAt_next`) and ends as the journal of
the write. `prune` never reaches the newest sequence (`mem_prune_of_top`), so what a write logs
stands when it commits.
-/

namespace Huliho

/-- How many rows of the log an account keeps at least. -/
def CHANGES_HORIZON : Nat := 10000

/-! ## What a write does to the log -/

/-- The account's state counter. -/
def stateOf (t : Tables) : Nat := t.sequence

/-- Opens the next state for a batch of changes: the counter moves by one and the new sequence
comes back for the rows. -/
def nextSequence (t : Tables) : Tables × Nat :=
  ({ t with sequence := t.sequence + 1 }, t.sequence + 1)

/-- Writes one change under `sequence`, a plain `INSERT`. -/
def log (t : Tables) (sequence : Nat) (slot : Slot) (kind : ChangeKind) :
    Except StoreError Tables := do
  let changes ← constrained (t.changes.insert? ⟨sequence, slot.1, slot.2, kind⟩)
  pure { t with changes }

/-- The sequences of the newest `CHANGES_HORIZON` rows, newest first. -/
def newest (t : Tables) : List Nat :=
  ((t.changes.rows.map LogRow.sequence).insertionSort (· ≥ ·)).take CHANGES_HORIZON

/-- Forgets the sequences below the newest `CHANGES_HORIZON` rows; a sequence leaves whole. -/
def prune (t : Tables) : Tables :=
  { t with changes := t.changes.delete fun row => ∃ low ∈ (newest t).min?, row.sequence < low }

/-! ## What the log reads -/

/-- One row of the log as it is read. -/
structure Change where
  sequence : Nat
  id : String
  kind : ChangeKind
deriving DecidableEq, Repr

/-- The log read from a state: the current state and the rows after the given one, oldest first;
`none` when the log has forgotten rows the answer would need. -/
structure ChangesSince where
  state : Nat
  changes : Option (List Change)
deriving DecidableEq, Repr

/-- The lowest sequence the log still holds, over every type. -/
def oldestKept (t : Tables) : Option Nat := (t.changes.rows.map LogRow.sequence).min?

/-- `ORDER BY sequence, id`. -/
def Change.Before (a b : Change) : Prop :=
  a.sequence < b.sequence ∨ (a.sequence = b.sequence ∧ a.id ≤ b.id)

instance : DecidableRel Change.Before := fun _ _ => inferInstanceAs (Decidable (_ ∨ _))

/-- The rows of a type after a sequence. -/
def readChanges (t : Tables) (object : ObjectType) (since : Nat) : List Change :=
  ((t.changes.rows.filter fun row => row.object = object ∧ since < row.sequence).map
    fun row => ⟨row.sequence, row.id, row.kind⟩).insertionSort Change.Before

/-- Every change of `object` after `since`, with the current state. -/
def changesSince (t : Tables) (object : ObjectType) (since : Nat) : ChangesSince :=
  let state := stateOf t
  let changes :=
    if since > state then none
    else match oldestKept t with
      | none => if since = state then some [] else none
      | some oldest => if since + 1 < oldest then none else some (readChanges t object since)
  ⟨state, changes⟩

/-! ## One entry per object and sequence -/

/-- The entry the log holds for an object under a sequence. -/
def entryAt (t : Tables) (sequence : Nat) (x : Slot) : Option ChangeKind :=
  (t.changes.find? fun row => row.sequence = sequence ∧ row.slot = x).map LogRow.kind

theorem entryAt_eq_some {t : Tables} {s : Nat} {x : Slot} {k : ChangeKind} :
    entryAt t s x = some k ↔ ⟨s, x.1, x.2, k⟩ ∈ t.changes := by
  unfold entryAt
  constructor
  · intro h
    obtain ⟨row, hf, rfl⟩ := Option.map_eq_some_iff.1 h
    obtain ⟨hr, hp⟩ := Table.mem_of_find? hf
    obtain ⟨rfl, rfl⟩ := hp
    exact hr
  · intro hr
    rw [Table.find?_eq_some hr ⟨rfl, rfl⟩]
    · rfl
    · rintro row hrow ⟨hs, hx⟩
      exact t.changes.unique hrow hr fun h =>
        h ⟨hs, congrArg Prod.fst hx, congrArg Prod.snd hx⟩

theorem mem_iff_entryAt {t : Tables} {row : LogRow} :
    row ∈ t.changes ↔ entryAt t row.sequence row.slot = some row.kind := by
  rw [entryAt_eq_some]
  rfl

theorem entryAt_eq_none {t : Tables} {s : Nat} {x : Slot} :
    entryAt t s x = none ↔ ∀ row ∈ t.changes, row.sequence = s → row.slot ≠ x := by
  simp [entryAt, Table.find?_eq_none]

/-- The rows of the log speak of states the counter has reached. -/
def LogBelow (t : Tables) : Prop := ∀ row ∈ t.changes, row.sequence ≤ t.sequence

/-- **A fresh sequence is empty.** -/
theorem LogBelow.entryAt_next {t : Tables} (h : LogBelow t) (x : Slot) :
    entryAt t (t.sequence + 1) x = none := by
  rw [entryAt_eq_none]
  intro row hrow hs
  have := h row hrow
  omega

/-! ## `log` -/

theorem log_eq_ok {t t' : Tables} {s : Nat} {x : Slot} {k : ChangeKind}
    (h : log t s x k = .ok t') :
    ∃ c, t.changes.insert? ⟨s, x.1, x.2, k⟩ = some c ∧ t' = { t with changes := c } := by
  simp only [log, Except.bind_eq_ok, constrained_eq_ok, pure, Except.pure, Except.ok.injEq] at h
  obtain ⟨c, hc, rfl⟩ := h
  exact ⟨c, hc, rfl⟩

/-- `log` goes through exactly where the object has no row under the sequence yet. -/
theorem log_isOk {t : Tables} {s : Nat} {x : Slot} {k : ChangeKind} :
    (log t s x k).isOk ↔ entryAt t s x = none := by
  have hok : (log t s x k).isOk = (t.changes.insert? ⟨s, x.1, x.2, k⟩).isSome := by
    cases h : t.changes.insert? ⟨s, x.1, x.2, k⟩ <;>
      simp [log, h, constrained, bind, Except.bind, Except.isOk, Except.toBool, pure, Except.pure]
  rw [hok, Table.insert?_isSome, entryAt_eq_none]
  constructor
  · rintro ha row hrow rfl rfl
    exact ha row hrow ⟨rfl, rfl, rfl⟩
  · rintro ha row hrow ⟨hs, ho, hi⟩
    exact ha row hrow hs (Prod.ext ho hi)

/-- After `log` the log holds the new entry under the sequence and what it held before. -/
theorem entryAt_log {t t' : Tables} {s : Nat} {x : Slot} {k : ChangeKind}
    (h : log t s x k = .ok t') (s' : Nat) (y : Slot) :
    entryAt t' s' y = if s' = s ∧ y = x then some k else entryAt t s' y := by
  obtain ⟨c, hc, rfl⟩ := log_eq_ok h
  apply Option.ext
  intro k'
  rw [entryAt_eq_some]
  show (_ ∈ c) ↔ _
  rw [Table.mem_insert? hc]
  split
  · rename_i hsy
    obtain ⟨rfl, rfl⟩ := hsy
    have hn : ∀ k'', (⟨s', y.1, y.2, k''⟩ : LogRow) ∉ t.changes := fun k'' hm =>
      (Table.insert?_eq_some hc).1 _ hm ⟨rfl, rfl, rfl⟩
    simp [hn, eq_comm]
  · rename_i hsy
    rw [entryAt_eq_some]
    simp only [LogRow.mk.injEq, or_iff_left_iff_imp]
    rintro ⟨rfl, h1, h2, -⟩
    exact absurd ⟨rfl, Prod.ext h1 h2⟩ hsy

theorem log_frame {t t' : Tables} {s : Nat} {x : Slot} {k : ChangeKind}
    (h : log t s x k = .ok t') : t' = { t with changes := t'.changes } := by
  obtain ⟨c, -, rfl⟩ := log_eq_ok h
  rfl

theorem LogBelow.log {t t' : Tables} {s : Nat} {x : Slot} {k : ChangeKind} (ht : LogBelow t)
    (hs : s ≤ t.sequence) (h : Huliho.log t s x k = .ok t') : LogBelow t' := by
  obtain ⟨c, hc, rfl⟩ := log_eq_ok h
  intro row hrow
  rcases (Table.mem_insert? hc).1 hrow with hrow | rfl
  · exact ht row hrow
  · exact hs

/-- What a run of rows logged under one sequence changes: the log alone, and of it that sequence
alone. -/
structure LogsUnder (s : Nat) (t t' : Tables) : Prop where
  frame : t' = { t with changes := t'.changes }
  below : LogBelow t → s ≤ t.sequence → LogBelow t'
  other : ∀ s' y, s' ≠ s → entryAt t' s' y = entryAt t s' y

theorem LogsUnder.refl {s : Nat} {t : Tables} : LogsUnder s t t :=
  ⟨rfl, fun h _ => h, fun _ _ _ => rfl⟩

theorem LogsUnder.trans {s : Nat} {t₁ t₂ t₃ : Tables} (h : LogsUnder s t₁ t₂)
    (h' : LogsUnder s t₂ t₃) : LogsUnder s t₁ t₃ := by
  have hseq : t₂.sequence = t₁.sequence := by rw [h.frame]
  refine ⟨?_, fun ht hs => h'.below (h.below ht hs) (hseq ▸ hs), ?_⟩
  · rw [h'.frame, h.frame]
  · intro s' y hs
    rw [h'.other s' y hs, h.other s' y hs]

theorem LogsUnder.of_log {s : Nat} {t t' : Tables} {x : Slot} {k : ChangeKind}
    (h : log t s x k = .ok t') : LogsUnder s t t' := by
  refine ⟨log_frame h, fun ht hs => ht.log hs h, fun s' y hs => ?_⟩
  rw [entryAt_log h, if_neg fun hc => hs hc.1]

/-! ## `prune` -/

theorem prune_frame (t : Tables) : prune t = { t with changes := (prune t).changes } := rfl

theorem LogBelow.prune {t : Tables} (ht : LogBelow t) : LogBelow (prune t) :=
  fun row hrow => ht row (Table.mem_delete.1 hrow).1

/-- **The newest sequence stays.** -/
theorem mem_prune_of_top {t : Tables} {row : LogRow} (ht : LogBelow t)
    (hs : row.sequence = t.sequence) : row ∈ (prune t).changes ↔ row ∈ t.changes := by
  rw [prune, Table.mem_delete]
  refine ⟨And.left, fun hrow => ⟨hrow, ?_⟩⟩
  rintro ⟨low, hm, hlt⟩
  have hlow : low ∈ newest t := List.min?_mem hm
  have hin : low ∈ t.changes.rows.map LogRow.sequence :=
    (List.mem_insertionSort _).1 (List.mem_of_mem_take hlow)
  obtain ⟨r, hr, rfl⟩ := List.mem_map.1 hin
  have := ht r hr
  omega

/-- **A sequence leaves whole**: what stays is what a sequence on or after some one holds, and that
one is not ahead of the counter. -/
theorem prune_kept {t : Tables} (ht : LogBelow t) :
    ∃ low ≤ t.sequence, ∀ row, row ∈ (prune t).changes ↔ row ∈ t.changes ∧ low ≤ row.sequence := by
  simp only [prune, Table.mem_delete]
  cases hm : (newest t).min? with
  | none => exact ⟨0, Nat.zero_le _, by simp⟩
  | some low =>
    have hin : low ∈ t.changes.rows.map LogRow.sequence :=
      (List.mem_insertionSort _).1 (List.mem_of_mem_take (List.min?_mem hm))
    obtain ⟨r, hr, rfl⟩ := List.mem_map.1 hin
    exact ⟨r.sequence, ht r hr, by simp⟩

theorem entryAt_prune {t : Tables} (ht : LogBelow t) (x : Slot) :
    entryAt (prune t) t.sequence x = entryAt t t.sequence x := by
  apply Option.ext
  intro k
  rw [entryAt_eq_some, entryAt_eq_some, mem_prune_of_top ht rfl]

end Huliho
