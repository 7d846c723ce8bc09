import Huliho.Cache.Types

/-!
# Patches over an email

`patch.ts`: the log of one email laid over a state (`replayed`) and taken off again (`unpatched`).
Rows **fit** a state when each holds the very patch and inverse a replay over it gives; then
`Fits.unpatched` says that undoing the inverses newest first gives that state back. What a replay
leaves of one path is the last word of the rows about it (`mem_replayed`), so a state with its rows
over it takes them again without a change (`replayed_again`).
-/

namespace Huliho.Cache

variable {s : MemberState} {rows more : List PendingRow} {row : PendingRow} {x : Path}

/-- Whether a path names a mailbox. -/
def Path.isMailbox : Path → Bool
  | .mailbox _ => true
  | .keyword _ => false

/-- The patch that takes an email out of every mailbox it stands in. -/
def emptied (s : MemberState) : EmailPatch :=
  ⟨∅, s.filter fun x => x.isMailbox, Finset.disjoint_empty_left _⟩

@[simp] theorem mem_emptied_gain : x ∉ (emptied s).gain := Finset.notMem_empty x

@[simp] theorem mem_emptied_lose : x ∈ (emptied s).lose ↔ x ∈ s ∧ x.isMailbox = true :=
  Finset.mem_filter

/-- Whether a patch changes anything, given the patch that takes it back. -/
def alters (patch inverse : EmailPatch) : Bool :=
  ¬ (patch.gain ⊆ inverse.gain ∧ patch.lose ⊆ inverse.lose)

/-- The patch a row lays over a state: a destroy empties the mailboxes the email stands in then. -/
def PendingRow.patchAt (row : PendingRow) (s : MemberState) : EmailPatch :=
  if row.destroy then emptied s else row.patch

/-- The row with the patch and the inverse that fit a state. -/
def PendingRow.fitted (row : PendingRow) (s : MemberState) : PendingRow :=
  { row with patch := row.patchAt s, inverse := (row.patchAt s).inverse s }

/-- The state with every pending row of the email laid over it, the oldest first; each row comes
back with the inverse that fits. -/
def replayed (s : MemberState) : List PendingRow → MemberState × List PendingRow
  | [] => (s, [])
  | row :: rows =>
    let replay := replayed ((row.patchAt s).applied s) rows
    (replay.1, row.fitted s :: replay.2)

/-- The state as it stood before the pending rows, the newest undone first. -/
def unpatched (s : MemberState) (rows : List PendingRow) : MemberState :=
  rows.foldr (fun row current => row.inverse.applied current) s

/-- Rows as a replay over the state leaves them. -/
def Fits (s : MemberState) (rows : List PendingRow) : Prop := (replayed s rows).2 = rows

/-! ## A replay in parts -/

@[simp] theorem replayed_nil : replayed s [] = (s, []) := rfl

theorem replayed_cons : replayed s (row :: rows) =
    ((replayed ((row.patchAt s).applied s) rows).1,
      row.fitted s :: (replayed ((row.patchAt s).applied s) rows).2) := rfl

theorem replayed_append : replayed s (rows ++ more) =
    ((replayed (replayed s rows).1 more).1,
      (replayed s rows).2 ++ (replayed (replayed s rows).1 more).2) := by
  induction rows generalizing s with
  | nil => rfl
  | cons row rows ih => rw [List.cons_append, replayed_cons, replayed_cons, ih]; rfl

@[simp] theorem fitted_seq : (row.fitted s).seq = row.seq := rfl

@[simp] theorem fitted_id : (row.fitted s).id = row.id := rfl

theorem fitted_patchAt : (row.fitted s).patchAt s = row.patchAt s := by
  cases h : row.destroy <;> simp [PendingRow.patchAt, PendingRow.fitted, h]

theorem fitted_fitted : (row.fitted s).fitted s = row.fitted s := by
  rw [PendingRow.fitted, fitted_patchAt]
  rfl

/-- A replay keeps the rows but for their patches and inverses. -/
theorem replayed_map {β : Type} {f : PendingRow → β} (hf : ∀ row s, f (row.fitted s) = f row) :
    (replayed s rows).2.map f = rows.map f := by
  induction rows generalizing s with
  | nil => rfl
  | cons row rows ih => rw [replayed_cons, List.map_cons, List.map_cons, ih, hf]

/-- **Undoing what was laid gives the state back.** -/
theorem unpatched_replayed (s : MemberState) (rows : List PendingRow) :
    unpatched (replayed s rows).1 (replayed s rows).2 = s := by
  induction rows generalizing s with
  | nil => rfl
  | cons row rows ih =>
    rw [replayed_cons]
    show (row.fitted s).inverse.applied (unpatched _ _) = s
    rw [ih]
    exact Patch.inverse_applied _ _

/-- A replay leaves rows that fit. -/
theorem fits_replayed (s : MemberState) (rows : List PendingRow) : Fits s (replayed s rows).2 := by
  induction rows generalizing s with
  | nil => rfl
  | cons row rows ih =>
    unfold Fits at ih ⊢
    rw [replayed_cons, replayed_cons, fitted_patchAt, fitted_fitted, ih]

theorem fits_append : Fits s (rows ++ more) ↔ Fits s rows ∧ Fits (replayed s rows).1 more := by
  unfold Fits
  rw [replayed_append]
  have hlen : (replayed s rows).2.length = rows.length := by
    have hseqs : (replayed s rows).2.map PendingRow.seq = rows.map PendingRow.seq :=
      replayed_map fun _ _ => rfl
    simpa using congrArg List.length hseqs
  exact ⟨fun h => List.append_inj h hlen, fun h => by rw [h.1, h.2]⟩

theorem Fits.unpatched (h : Fits s rows) : unpatched (replayed s rows).1 rows = s := by
  have := unpatched_replayed s rows
  rwa [h] at this

/-! ## The last word on a path -/

/-- What a row says of a path: in, out or nothing. -/
def PendingRow.word (row : PendingRow) (x : Path) : Option Bool :=
  if row.destroy then (if x.isMailbox then some false else none)
  else row.patch.word x

/-- The last word of some rows on a path. -/
def lastWord : List PendingRow → Path → Option Bool
  | [], _ => none
  | row :: rows, x => (lastWord rows x).or (row.word x)

theorem mem_patchAt_applied : x ∈ (row.patchAt s).applied s ↔
    match row.word x with
    | some word => word = true
    | none => x ∈ s := by
  unfold PendingRow.patchAt PendingRow.word
  cases hd : row.destroy with
  | true =>
    simp only [if_true, Patch.mem_applied, mem_emptied_gain, mem_emptied_lose, false_or]
    cases hx : x.isMailbox <;> simp
  | false =>
    simp only [Bool.false_eq_true, if_false, Patch.mem_applied_word]
    cases row.patch.word x <;> simp

/-- **What a replay leaves of a path.** -/
theorem mem_replayed : x ∈ (replayed s rows).1 ↔
    match lastWord rows x with
    | some word => word = true
    | none => x ∈ s := by
  induction rows generalizing s with
  | nil => rfl
  | cons row rows ih =>
    rw [replayed_cons, ih, lastWord]
    cases lastWord rows x with
    | some word => rfl
    | none => exact mem_patchAt_applied

/-- Rows laid over a state that has them already change nothing. -/
theorem replayed_again (s : MemberState) (rows : List PendingRow) :
    (replayed (replayed s rows).1 rows).1 = (replayed s rows).1 := by
  ext x
  rw [mem_replayed, mem_replayed]
  cases lastWord rows x <;> rfl

end Huliho.Cache
