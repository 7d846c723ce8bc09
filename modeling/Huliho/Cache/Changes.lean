import Huliho.Cache.Run

/-!
# What a replay reads of the log

A replay reads the patch, the inverse and the word to destroy of each row and no more
(`PendingRow.change`), so rows that are sent, released or numbered anew replay the same. `Log.of` is
the log of one email; what an operation does to the log it does to each email's rows.
-/

namespace Huliho.Cache

variable {s : MemberState} {rows others : List PendingRow} {row held : PendingRow}

/-! ## Changes -/

/-- What a replay reads of a row. -/
def PendingRow.change (row : PendingRow) : EmailPatch × EmailPatch × Bool :=
  (row.patch, row.inverse, row.destroy)

theorem change_eq : row.change = held.change ↔
    row.patch = held.patch ∧ row.inverse = held.inverse ∧ row.destroy = held.destroy := by
  simp only [PendingRow.change, Prod.mk.injEq]

theorem patchAt_change (h : row.change = held.change) : row.patchAt s = held.patchAt s := by
  obtain ⟨hp, -, hd⟩ := change_eq.1 h
  rw [PendingRow.patchAt, PendingRow.patchAt, hp, hd]

theorem word_change (h : row.change = held.change) : row.word = held.word := by
  obtain ⟨hp, -, hd⟩ := change_eq.1 h
  funext x
  rw [PendingRow.word, PendingRow.word, hp, hd]

theorem fitted_change (h : row.change = held.change) :
    (row.fitted s).change = (held.fitted s).change := by
  refine change_eq.2 ⟨patchAt_change h, ?_, (change_eq.1 h).2.2⟩
  show (row.patchAt s).inverse s = (held.patchAt s).inverse s
  rw [patchAt_change h]

/-- **Rows of the same changes replay the same.** -/
theorem replayed_change (h : rows.map PendingRow.change = others.map PendingRow.change) :
    (replayed s rows).1 = (replayed s others).1 ∧
      (replayed s rows).2.map PendingRow.change = (replayed s others).2.map PendingRow.change := by
  induction rows generalizing s others with
  | nil =>
    obtain rfl : others = [] := by simpa using h.symm
    exact ⟨rfl, rfl⟩
  | cons row rows ih =>
    cases others with
    | nil => simp at h
    | cons other others =>
      obtain ⟨hrow, hrows⟩ := List.cons.inj h
      rw [replayed_cons, replayed_cons, patchAt_change hrow]
      obtain ⟨hstate, hleft⟩ := ih (s := (other.patchAt s).applied s) hrows
      refine ⟨hstate, ?_⟩
      simp only [List.map_cons, hleft, fitted_change hrow]

/-- A row fits as soon as its patch and its inverse do. -/
theorem fits_iff : Fits s rows ↔
    (replayed s rows).2.map PendingRow.change = rows.map PendingRow.change := by
  unfold Fits
  constructor
  · intro h
    rw [h]
  · intro h
    induction rows generalizing s with
    | nil => rfl
    | cons row rows ih =>
      rw [replayed_cons] at h ⊢
      obtain ⟨hrow, hrows⟩ := List.cons.inj h
      obtain ⟨hp, hi, -⟩ := change_eq.1 hrow
      have hsame : row.fitted s = row := by
        unfold PendingRow.fitted at hp hi ⊢
        simp only at hp hi
        rw [hi, hp]
      simp only [hsame, ih hrows]

theorem fits_change (h : rows.map PendingRow.change = others.map PendingRow.change) :
    Fits s rows ↔ Fits s others := by
  rw [fits_iff, fits_iff, (replayed_change h).2, h]

theorem unpatched_change (h : rows.map PendingRow.change = others.map PendingRow.change) :
    unpatched s rows = unpatched s others := by
  induction rows generalizing others with
  | nil =>
    obtain rfl : others = [] := by simpa using h.symm
    rfl
  | cons row rows ih =>
    cases others with
    | nil => simp at h
    | cons other others =>
      obtain ⟨hrow, hrows⟩ := List.cons.inj h
      show row.inverse.applied (unpatched s rows) = other.inverse.applied (unpatched s others)
      rw [ih hrows, (change_eq.1 hrow).2.1]

/-! ## Rows that follow -/

theorem PendingRow.Follows.word (h : row.Follows held) : row.word = held.word := by
  funext x
  unfold PendingRow.word
  rw [h.destroy]
  cases hd : held.destroy with
  | true => rfl
  | false => rw [if_neg (by simp), if_neg (by simp), h.patch hd]

theorem PendingRow.Follows.patchAt (h : row.Follows held) : row.patchAt s = held.patchAt s := by
  unfold PendingRow.patchAt
  rw [h.destroy]
  cases hd : held.destroy with
  | true => rfl
  | false => rw [if_neg (by simp), if_neg (by simp), h.patch hd]

/-- The last word is the same where every row follows. -/
theorem lastWord_follows (h : List.Forall₂ PendingRow.Follows rows others) :
    lastWord rows = lastWord others := by
  funext x
  induction h with
  | nil => rfl
  | cons hrow _ ih => rw [lastWord, lastWord, ih, hrow.word]

/-- A replay is the same where every row follows. -/
theorem replayed_follows (h : List.Forall₂ PendingRow.Follows rows others) :
    (replayed s rows).1 = (replayed s others).1 := by
  induction h generalizing s with
  | nil => rfl
  | cons hrow _ ih => rw [replayed_cons, replayed_cons, hrow.patchAt, ih]

/-- A replay leaves rows that follow. -/
theorem forall_refits_replayed (s : MemberState) (rows : List PendingRow) :
    List.Forall₂ PendingRow.Refits (replayed s rows).2 rows := by
  induction rows generalizing s with
  | nil => exact List.Forall₂.nil
  | cons row rows ih => exact List.Forall₂.cons PendingRow.refits_fitted (ih _)

/-- Laying rows that fit one state over another fits them to it. -/
theorem replayed_refitted {t : MemberState} (h : Fits s rows) :
    (replayed s (replayed t rows).2).2 = rows := by
  induction rows generalizing s t with
  | nil => rfl
  | cons row rows ih =>
    unfold Fits at h
    rw [replayed_cons] at h
    obtain ⟨hrow, hrows⟩ := List.cons.inj h
    have hpatch : (row.fitted t).patchAt s = row.patchAt s :=
      PendingRow.refits_fitted.toFollows.patchAt
    have hfitted : (row.fitted t).fitted s = row.fitted s := by
      unfold PendingRow.fitted at hpatch ⊢
      simp only [hpatch]
    rw [replayed_cons, replayed_cons, hpatch, hfitted, hrow, ih hrows]

/-! ## The rows of one email -/

namespace Log

variable {log before : Log} {id : EmailId}

theorem mem_of : row ∈ log.of id ↔ row ∈ log ∧ row.id = id := by
  rw [Log.of, List.mem_filter, decide_eq_true_eq]
  rfl

theorem of_sorted : (log.of id).Pairwise fun a b => a.seq < b.seq := log.sorted.filter _

theorem of_revise {f : PendingRow → PendingRow} {hf : ∀ row, (f row).seq = row.seq}
    (hid : ∀ row ∈ log, (f row).id = row.id) :
    Log.of (log.revise f hf) id = (log.of id).map f := by
  unfold Log.of Sequence.revise
  rw [List.filter_map]
  congr 1
  refine List.filter_congr fun row hr => ?_
  simp only [Function.comp_apply, hid row hr]

theorem of_remove {ns : List Nat} :
    Log.of (log.remove ns) id = (log.of id).filter fun row => row.seq ∉ ns := by
  unfold Log.of Sequence.remove
  rw [List.filter_filter, List.filter_filter]
  exact List.filter_congr fun row _ => Bool.and_comm _ _

end Log

end Huliho.Cache
