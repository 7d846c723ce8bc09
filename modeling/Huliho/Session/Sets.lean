import Mathlib.Data.List.Sort
import Huliho.Lib.Decimals
import Huliho.Lib.Ranges
import Huliho.Session.Command

/-!
# UID sets on the command line

`sequence_set` of `session/read/preview.rs` and `uid_set` of `session/write.rs`: the UIDs of a command,
sorted, each once, runs folded into ranges. `readSet` is the set as a server reads it back. What is
written denotes the UIDs and no other (**`readSet_sequenceSet`**) and takes at most eleven bytes a UID
(`length_sequenceSet`).
-/

namespace Huliho.Session

/-- The messages one STORE, MOVE, COPY or EXPUNGE names. -/
def MAX_STORE_UIDS : Nat := 100

def NO_MESSAGE : String := "a write names no message or too many"

/-- One run behind those written. -/
def pushRun (set : Text) (run : Nat × Nat) : Text :=
  (if set = [] then [] else set ++ [',']) ++ decimal run.1 ++
    if run.2 = run.1 then [] else ':' :: decimal run.2

/-- The loop of `sequence_set`. -/
def sequenceLoop : List Nat → Text → Option (Nat × Nat) → Text
  | [], set, none => set
  | [], set, some ended => pushRun set ended
  | uid :: uids, set, none => sequenceLoop uids set (some (uid, uid))
  | uid :: uids, set, some run =>
    if run.2 + 1 = uid then sequenceLoop uids set (some (run.1, uid))
    else sequenceLoop uids (pushRun set run) (some (uid, uid))

/-- The UIDs as a sequence set. -/
def sequenceSet (uids : List Nat) : Text :=
  sequenceLoop (dedup (uids.insertionSort (· ≤ ·))) [] none

/-- The set of one write: a message at least, `MAX_STORE_UIDS` at most, never a UID of zero. -/
def uidSet (uids : List Nat) : Except SessionError Text :=
  if uids = [] ∨ MAX_STORE_UIDS < uids.length ∨ 0 ∈ uids then .error (.protocol NO_MESSAGE)
  else .ok (sequenceSet uids)

/-! ## Read back -/

/-- One range as a server reads it. -/
def readRun (text : Text) : Option (Nat × Nat) :=
  match readDecimal text with
  | some (first, []) => some (first, first)
  | some (first, ':' :: rest) =>
    match readDecimal rest with
    | some (last, []) => some (first, last)
    | _ => none
  | _ => none

/-- A set as a server reads it. -/
def readSet (text : Text) : Option (List (Nat × Nat)) := (text.splitOn ',').mapM readRun

/-- The UIDs a set denotes: those of its ranges. -/
def Denotes (text : Text) (uid : Nat) : Prop :=
  ∃ runs, readSet text = some runs ∧ ∃ run ∈ runs, run.1 ≤ uid ∧ uid ≤ run.2

/-- One range as it is written. -/
def runText (run : Nat × Nat) : Text := pushRun [] run

/-- Some ranges as they are written. -/
def runsText (runs : List (Nat × Nat)) : Text := [','].intercalate (runs.map runText)

section

variable {runs : List (Nat × Nat)} {run : Nat × Nat} {uids : List Nat} {uid : Nat} {c : Char}

theorem runText_eq (run : Nat × Nat) :
    runText run = decimal run.1 ++ if run.2 = run.1 then [] else ':' :: decimal run.2 := rfl

theorem runText_ne_nil : runText run ≠ [] := by
  rw [runText_eq]
  exact List.append_ne_nil_of_left_ne_nil decimal_ne_nil _

theorem mem_runText (h : c ∈ runText run) : c.isDigit ∨ c = ':' := by
  rw [runText_eq, List.mem_append] at h
  rcases h with h | h
  · exact .inl (isDigit_of_mem_decimal h)
  · split at h
    · exact absurd h List.not_mem_nil
    · rcases List.mem_cons.1 h with rfl | h
      · exact .inr rfl
      · exact .inl (isDigit_of_mem_decimal h)

/-- **A range is read back.** -/
theorem readRun_runText : readRun (runText run) = some run := by
  obtain ⟨first, last⟩ := run
  rw [runText_eq, readRun]
  dsimp only
  by_cases hsame : last = first
  · rw [if_pos hsame, List.append_nil, readDecimal_decimal]
    exact congrArg some (Prod.ext rfl hsame.symm)
  · have hcolon : ∀ c ∈ (':' :: decimal last).head?, ¬ c.isDigit := by
      intro c hc
      obtain rfl := Option.some.inj hc
      decide
    rw [if_neg hsame, readDecimal_append hcolon]
    simp only [readDecimal_decimal]

theorem intercalate_concat {α : Type} {sep l : List α} {ls : List (List α)} (h : ls ≠ []) :
    sep.intercalate (ls ++ [l]) = sep.intercalate ls ++ (sep ++ l) := by
  induction ls with
  | nil => exact absurd rfl h
  | cons first ls ih =>
    by_cases hls : ls = []
    · subst hls
      simp [List.intercalate_cons_cons]
    · rw [List.cons_append, List.intercalate_cons_of_ne_nil (by simp), ih hls,
        List.intercalate_cons_of_ne_nil hls, List.append_assoc, List.append_assoc, List.append_assoc]

theorem runsText_eq_nil : runsText runs = [] ↔ runs = [] := by
  refine ⟨fun h => ?_, fun h => h ▸ rfl⟩
  cases runs with
  | nil => rfl
  | cons run runs =>
    have hne : runText run ≠ [] := runText_ne_nil
    rw [runsText, List.map_cons] at h
    by_cases hruns : runs.map runText = []
    · rw [hruns, List.intercalate_singleton] at h
      exact absurd h hne
    · rw [List.intercalate_cons_of_ne_nil hruns, List.append_assoc, List.append_eq_nil_iff] at h
      exact absurd h.1 hne

theorem pushRun_runsText : pushRun (runsText runs) run = runsText (runs ++ [run]) := by
  by_cases hruns : runs = []
  · subst hruns
    simp [runsText, runText]
  · have hmap : runs.map runText ≠ [] := by simpa using hruns
    rw [pushRun, if_neg (mt runsText_eq_nil.1 hruns), runsText, runsText, List.map_append,
      List.map_singleton, intercalate_concat hmap, runText_eq]
    simp

/-- The loop writes the ranges of the list. -/
theorem sequenceLoop_eq (uids : List Nat) (runs : List (Nat × Nat)) (held : Option (Nat × Nat)) :
    sequenceLoop uids (runsText runs) held = runsText (runs ++ folded uids held) := by
  induction uids generalizing runs held with
  | nil =>
    cases held with
    | none => exact congrArg runsText (List.append_nil runs).symm
    | some run => exact pushRun_runsText
  | cons uid uids ih =>
    cases held with
    | none => exact ih runs _
    | some run =>
      rw [sequenceLoop, folded]
      split
      · exact ih runs _
      · rw [pushRun_runsText, ih, List.append_assoc, List.singleton_append]

theorem sequenceSet_eq (uids : List Nat) : sequenceSet uids =
    runsText (folded (dedup (uids.insertionSort (· ≤ ·))) none) := sequenceLoop_eq _ [] none

theorem mem_sorted {uids : List Nat} :
    uid ∈ dedup (uids.insertionSort (· ≤ ·)) ↔ uid ∈ uids := by
  rw [mem_dedup, (List.perm_insertionSort _ _).mem_iff]

theorem mapM_readRun (runs : List (Nat × Nat)) : (runs.map runText).mapM readRun = some runs := by
  induction runs with
  | nil => rfl
  | cons run runs ih =>
    rw [List.map_cons, List.mapM_cons, readRun_runText, ih]
    rfl

/-- Ranges are read back as they were written. -/
theorem readSet_runsText (h : runs ≠ []) : readSet (runsText runs) = some runs := by
  have hcomma : ∀ text ∈ runs.map runText, ',' ∉ text := by
    intro text htext hin
    obtain ⟨run, -, rfl⟩ := List.mem_map.1 htext
    rcases mem_runText hin with hdigit | hcolon
    · exact absurd hdigit (by decide)
    · exact absurd hcolon (by decide)
  rw [readSet, runsText, List.splitOn_intercalate ',' hcomma (by simpa using h), mapM_readRun]

theorem denotes_folded (l : List Nat) (uid : Nat) :
    Denotes (runsText (folded l none)) uid ↔ uid ∈ l := by
  obtain ⟨hexpand, -⟩ := expand_folded l none (by simp)
  have hspans : (∃ run ∈ folded l none, run.1 ≤ uid ∧ uid ≤ run.2) ↔ uid ∈ l := by
    have hmem : uid ∈ (folded l none).flatMap spanned ↔ uid ∈ l := by
      rw [hexpand]
      rfl
    rw [← hmem, List.mem_flatMap]
    simp only [mem_spanned]
  rw [← hspans]
  by_cases hnone : folded l none = []
  · have hempty : readSet (runsText []) = none := by decide
    rw [Denotes, hnone, hempty]
    simp
  · rw [Denotes, readSet_runsText hnone]
    simp

/-- **A set denotes the UIDs it was written of, and no other.** -/
theorem readSet_sequenceSet (uids : List Nat) (uid : Nat) :
    Denotes (sequenceSet uids) uid ↔ uid ∈ uids := by
  rw [sequenceSet_eq, denotes_folded, mem_sorted]

/-! ## Its length -/

/-- The digits of a UID are at most ten. -/
theorem length_decimal_uid (h : uid < 2 ^ 32) : (decimal uid).length ≤ 10 :=
  length_decimal_le (by decide) (Nat.lt_trans h (by decide))

theorem length_runText (hordered : run.1 ≤ run.2) (h : run.2 < 2 ^ 32) :
    (runText run).length + 1 ≤ 11 * (spanned run).length := by
  have hfirst := length_decimal_uid (Nat.lt_of_le_of_lt hordered h)
  have hlast := length_decimal_uid h
  rw [runText_eq, List.length_append, spanned, List.length_range']
  split
  · rename_i hsame
    rw [List.length_nil]
    omega
  · rename_i hdiffer
    rw [List.length_cons]
    omega

/-- Some ranges take at most eleven bytes a UID, a comma behind each included. -/
theorem length_runsText (h : ∀ run ∈ runs, run.1 ≤ run.2 ∧ run.2 < 2 ^ 32) :
    (runsText runs).length ≤ 11 * (runs.flatMap spanned).length := by
  induction runs with
  | nil => exact Nat.zero_le _
  | cons run runs ih =>
    obtain ⟨⟨hordered, hsmall⟩, hrest⟩ := List.forall_mem_cons.1 h
    have hrun := length_runText hordered hsmall
    have hruns := ih hrest
    rw [List.flatMap_cons, List.length_append, runsText, List.map_cons]
    by_cases hnone : runs.map runText = []
    · rw [hnone, List.intercalate_singleton]
      omega
    · rw [List.intercalate_cons_of_ne_nil hnone, List.length_append, List.length_append,
        List.length_singleton]
      rw [runsText] at hruns
      omega

theorem length_sequenceSet (h : ∀ uid ∈ uids, uid < 2 ^ 32) :
    (sequenceSet uids).length ≤ 11 * uids.length := by
  obtain ⟨hexpand, hordered⟩ :=
    expand_folded (dedup (uids.insertionSort (· ≤ ·))) none (by simp)
  have hrange : ∀ run ∈ folded (dedup (uids.insertionSort (· ≤ ·))) none,
      run.1 ≤ run.2 ∧ run.2 < 2 ^ 32 := by
    intro run hrun
    have hle := hordered run hrun
    refine ⟨hle, h run.2 (mem_sorted.1 ?_)⟩
    have hin : run.2 ∈ (folded (dedup (uids.insertionSort (· ≤ ·))) none).flatMap spanned :=
      List.mem_flatMap.2 ⟨run, hrun, mem_spanned.2 ⟨hle, Nat.le_refl _⟩⟩
    rwa [hexpand] at hin
  have hlength : (dedup (uids.insertionSort (· ≤ ·))).length ≤ uids.length := by
    have hsub := (dedup_sublist (uids.insertionSort (· ≤ ·))).length_le
    rwa [(List.perm_insertionSort (· ≤ ·) uids).length_eq] at hsub
  have hruns := length_runsText hrange
  rw [hexpand] at hruns
  rw [sequenceSet_eq]
  exact Nat.le_trans hruns (Nat.mul_le_mul_left 11 hlength)

/-- A set is written in digits, commas and colons. -/
theorem mem_sequenceSet (h : c ∈ sequenceSet uids) : c.isDigit ∨ c = ':' ∨ c = ',' := by
  rw [sequenceSet_eq, runsText] at h
  generalize folded (dedup (uids.insertionSort (· ≤ ·))) none = runs at h
  induction runs with
  | nil => exact absurd h List.not_mem_nil
  | cons run runs ih =>
    rw [List.map_cons] at h
    by_cases hnone : runs.map runText = []
    · rw [hnone, List.intercalate_singleton] at h
      exact (mem_runText h).imp_right .inl
    · rw [List.intercalate_cons_of_ne_nil hnone, List.append_assoc, List.mem_append,
        List.mem_append] at h
      rcases h with h | h | h
      · exact (mem_runText h).imp_right .inl
      · exact .inr (.inr (List.mem_singleton.1 h))
      · exact ih h

end

end Huliho.Session
