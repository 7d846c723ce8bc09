import Mathlib.Data.List.Pairwise
import Mathlib.Data.List.Nodup
import Mathlib.Data.List.Induction

/-!
# Rows by sequence number

Rows in the order of a number each of them carries, no number twice. A row that is `put` takes the
place of the one of its number, rows are removed by their numbers, and a new row is numbered
`next`, past the last one. What such a list holds says all about it: `Sequence.ext_mem`.
-/

namespace Huliho

/-- Rows in the order of their numbers. -/
structure Sequence {ρ : Type*} (seq : ρ → Nat) where
  rows : List ρ
  sorted : rows.Pairwise fun a b => seq a < seq b

/-- Two sorted lists that hold the same rows are one. -/
theorem sorted_ext {ρ : Type*} {seq : ρ → Nat} {l m : List ρ}
    (hl : l.Pairwise fun a b => seq a < seq b) (hm : m.Pairwise fun a b => seq a < seq b)
    (h : ∀ x, x ∈ l ↔ x ∈ m) : l = m := by
  induction l generalizing m with
  | nil =>
    symm
    exact List.eq_nil_iff_forall_not_mem.2 fun x hx => List.not_mem_nil ((h x).2 hx)
  | cons a l ih =>
    cases m with
    | nil => exact absurd ((h a).1 List.mem_cons_self) List.not_mem_nil
    | cons b m =>
      obtain ⟨hal, hl⟩ := List.pairwise_cons.1 hl
      obtain ⟨hbm, hm'⟩ := List.pairwise_cons.1 hm
      -- The first of either list is the lowest of all.
      have hab : a = b := by
        rcases List.mem_cons.1 ((h a).1 List.mem_cons_self) with hab | hab
        · exact hab
        rcases List.mem_cons.1 ((h b).2 List.mem_cons_self) with hba | hba
        · exact hba.symm
        · have := hal b hba
          have := hbm a hab
          omega
      subst hab
      congr 1
      refine ih hl hm' fun x => ?_
      have hx := h x
      rw [List.mem_cons, List.mem_cons] at hx
      constructor
      · intro hin
        rcases hx.1 (.inr hin) with rfl | hin'
        · exact absurd (hal x hin) (Nat.lt_irrefl _)
        · exact hin'
      · intro hin
        rcases hx.2 (.inr hin) with rfl | hin'
        · exact absurd (hbm x hin) (Nat.lt_irrefl _)
        · exact hin'

/-- Of two rows the lower one stands before the other. -/
theorem sorted_related {ρ : Type*} {seq : ρ → Nat} {l : List ρ} {R : ρ → ρ → Prop} {a b : ρ}
    (hl : l.Pairwise fun a b => seq a < seq b) (h : l.Pairwise R) (ha : a ∈ l) (hb : b ∈ l)
    (hab : seq a < seq b) : R a b := by
  obtain ⟨i, hi, rfl⟩ := List.mem_iff_getElem.1 ha
  obtain ⟨j, hj, rfl⟩ := List.mem_iff_getElem.1 hb
  rcases Nat.lt_trichotomy i j with hij | rfl | hji
  · exact List.pairwise_iff_getElem.1 h i j hi hj hij
  · exact absurd hab (Nat.lt_irrefl _)
  · exact absurd (List.pairwise_iff_getElem.1 hl j i hj hi hji) (Nat.lt_asymm hab)

namespace Sequence

variable {ρ : Type*} {seq : ρ → Nat} {s t : Sequence seq} {x r : ρ}

instance : Membership ρ (Sequence seq) := ⟨fun s r => r ∈ s.rows⟩

theorem mem_def : x ∈ s ↔ x ∈ s.rows := Iff.rfl

/-- No row. -/
def empty : Sequence seq := ⟨[], List.Pairwise.nil⟩

theorem ext_mem (h : ∀ x, x ∈ s ↔ x ∈ t) : s = t := by
  have hrows := sorted_ext s.sorted t.sorted h
  cases s
  cases t
  cases hrows
  rfl

/-- A number names one row. -/
theorem unique (hx : x ∈ s) (hr : r ∈ s) (h : seq x = seq r) : x = r := by
  have hne : s.rows.Pairwise fun a b => seq a ≠ seq b := s.sorted.imp fun h => Nat.ne_of_lt h
  have : Std.Symm fun a b : ρ => seq a ≠ seq b := ⟨fun _ _ => Ne.symm⟩
  by_contra hxr
  exact hne.forall hx hr hxr h

/-- A row in, in the place of the one of its number. -/
def put (s : Sequence seq) (r : ρ) : Sequence seq where
  rows := s.rows.filter (fun x => seq x < seq r) ++
    r :: s.rows.filter fun x => seq r < seq x
  sorted := by
    refine List.pairwise_append.2 ⟨s.sorted.filter _, List.pairwise_cons.2
      ⟨fun b hb => of_decide_eq_true (List.mem_filter.1 hb).2, s.sorted.filter _⟩, ?_⟩
    intro a ha b hb
    have ha := of_decide_eq_true (List.mem_filter.1 ha).2
    rcases List.mem_cons.1 hb with rfl | hb
    · exact ha
    · have hb := of_decide_eq_true (List.mem_filter.1 hb).2
      omega

theorem mem_put : x ∈ s.put r ↔ x = r ∨ (x ∈ s ∧ seq x ≠ seq r) := by
  simp only [mem_def, put, List.mem_append, List.mem_cons, List.mem_filter, decide_eq_true_eq]
  constructor
  · rintro (⟨hx, hlt⟩ | rfl | ⟨hx, hlt⟩)
    · exact .inr ⟨hx, by omega⟩
    · exact .inl rfl
    · exact .inr ⟨hx, by omega⟩
  · rintro (rfl | ⟨hx, hne⟩)
    · exact .inr (.inl rfl)
    · rcases Nat.lt_or_gt_of_ne hne with hlt | hlt
      · exact .inl ⟨hx, hlt⟩
      · exact .inr (.inr ⟨hx, hlt⟩)

/-- Rows in, one after the other. -/
def putAll (s : Sequence seq) (rows : List ρ) : Sequence seq := rows.foldl put s

@[simp] theorem putAll_nil : s.putAll [] = s := rfl

/-- What stands once rows went in was among them or stood before. -/
theorem of_mem_putAll {rows : List ρ} (h : x ∈ s.putAll rows) : x ∈ rows ∨ x ∈ s := by
  induction rows generalizing s with
  | nil => exact .inr h
  | cons r rows ih =>
    rcases ih (s := s.put r) h with hx | hx
    · exact .inl (List.mem_cons_of_mem _ hx)
    · rcases mem_put.1 hx with rfl | hx
      · exact .inl List.mem_cons_self
      · exact .inr hx.1

/-- Rows of different numbers all stand, and those whose number is not among them. -/
theorem mem_putAll {rows : List ρ} (hr : rows.Pairwise fun a b => seq a ≠ seq b) :
    x ∈ s.putAll rows ↔ x ∈ rows ∨ (x ∈ s ∧ ∀ r ∈ rows, seq x ≠ seq r) := by
  induction rows generalizing s with
  | nil => simp
  | cons r rows ih =>
    obtain ⟨hfirst, hrest⟩ := List.pairwise_cons.1 hr
    rw [putAll, List.foldl_cons, ← putAll, ih hrest, mem_put, List.mem_cons,
      List.forall_mem_cons]
    constructor
    · rintro (hx | ⟨rfl | ⟨hx, hne⟩, hall⟩)
      · exact .inl (.inr hx)
      · exact .inl (.inl rfl)
      · exact .inr ⟨hx, hne, hall⟩
    · rintro ((rfl | hx) | ⟨hx, hne, hall⟩)
      · exact .inr ⟨.inl rfl, hfirst⟩
      · exact .inl hx
      · exact .inr ⟨.inr ⟨hx, hne⟩, hall⟩

/-- No number leaves as rows go in. -/
theorem exists_mem_putAll {rows : List ρ} (h : x ∈ s) : ∃ y ∈ s.putAll rows, seq y = seq x := by
  induction rows generalizing s x with
  | nil => exact ⟨x, h, rfl⟩
  | cons r rows ih =>
    by_cases hr : seq x = seq r
    · obtain ⟨y, hy, hseq⟩ := ih (s := s.put r) (mem_put.2 (.inl rfl))
      exact ⟨y, hy, hseq.trans hr.symm⟩
    · exact ih (s := s.put r) (mem_put.2 (.inr ⟨h, hr⟩))

/-- The rows changed in place. -/
def revise (s : Sequence seq) (f : ρ → ρ) (hf : ∀ x, seq (f x) = seq x) : Sequence seq where
  rows := s.rows.map f
  sorted := s.sorted.map f fun a b h => by rwa [hf, hf]

theorem mem_revise {f : ρ → ρ} {hf : ∀ x, seq (f x) = seq x} :
    x ∈ s.revise f hf ↔ ∃ y ∈ s, f y = x := List.mem_map

/-- **Some rows changed and put back** are those rows changed in place. -/
theorem putAll_filter (p : ρ → Bool) {f : ρ → ρ} (hf : ∀ x, seq (f x) = seq x) :
    s.putAll ((s.rows.filter p).map f) =
      s.revise (fun x => if p x then f x else x) (fun x => by split; exacts [hf x, rfl]) := by
  have hapart : ((s.rows.filter p).map f).Pairwise fun a b => seq a ≠ seq b := by
    refine ((s.sorted.filter p).map f fun a b hab => ?_)
    rw [hf, hf]
    exact Nat.ne_of_lt hab
  refine ext_mem fun x => ?_
  rw [mem_putAll hapart, mem_revise]
  constructor
  · rintro (hx | ⟨hx, hne⟩)
    · obtain ⟨y, hy, rfl⟩ := List.mem_map.1 hx
      obtain ⟨hy, hp⟩ := List.mem_filter.1 hy
      exact ⟨y, hy, if_pos hp⟩
    · refine ⟨x, hx, if_neg fun hp => ?_⟩
      exact hne (f x) (List.mem_map_of_mem (List.mem_filter.2 ⟨hx, hp⟩)) (hf x).symm
  · rintro ⟨y, hy, rfl⟩
    split
    · rename_i hp
      exact .inl (List.mem_map_of_mem (List.mem_filter.2 ⟨hy, hp⟩))
    · rename_i hp
      refine .inr ⟨hy, fun r hr hseq => ?_⟩
      obtain ⟨z, hz, rfl⟩ := List.mem_map.1 hr
      obtain ⟨hz, hpz⟩ := List.mem_filter.1 hz
      rw [hf] at hseq
      rw [unique hy hz hseq] at hp
      exact hp hpz

/-- The last of some rows that has the number of a row, or that row. -/
def latest (seq : ρ → Nat) (rows : List ρ) (x : ρ) : ρ :=
  (rows.reverse.find? fun r => seq r = seq x).getD x

theorem latest_seq (seq : ρ → Nat) (rows : List ρ) (x : ρ) : seq (latest seq rows x) = seq x := by
  unfold latest
  cases h : rows.reverse.find? fun r => decide (seq r = seq x) with
  | none => rfl
  | some r =>
    have hr := List.find?_some h
    exact of_decide_eq_true hr

theorem latest_mem (seq : ρ → Nat) (rows : List ρ) (x : ρ) :
    (latest seq rows x ∈ rows) ∨ (latest seq rows x = x ∧ ∀ r ∈ rows, seq r ≠ seq x) := by
  unfold latest
  cases h : rows.reverse.find? fun r => decide (seq r = seq x) with
  | none =>
    refine .inr ⟨rfl, fun r hr hc => ?_⟩
    have := List.find?_eq_none.1 h r (List.mem_reverse.2 hr)
    exact this (decide_eq_true hc)
  | some r => exact .inl (List.mem_reverse.1 (List.mem_of_find?_eq_some h))

theorem latest_concat (seq : ρ → Nat) (rows : List ρ) (r x : ρ) :
    latest seq (rows ++ [r]) x = if seq r = seq x then r else latest seq rows x := by
  unfold latest
  rw [List.reverse_concat, List.find?_cons]
  by_cases h : seq r = seq x <;> simp [h]

/-- **Rows changed by the last of some rows** are the rows those leave: each of them has its number
among the rows, and what it leaves untouched stands as it was. -/
theorem map_latest {l m rows : List ρ} (hl : l.Pairwise fun a b => seq a < seq b)
    (hseq : m.map seq = l.map seq) (hrows : ∀ r ∈ rows, seq r ∈ l.map seq → r ∈ m)
    (hm : ∀ y ∈ m, y ∈ rows ∨ y ∈ l) : l.map (latest seq rows) = m := by
  have hl' : (l.map seq).Pairwise (· < ·) := hl.map seq fun _ _ h => h
  have hm' : m.Pairwise fun a b => seq a < seq b := by
    rw [← hseq] at hl'
    exact List.pairwise_map.1 hl'
  have hlatest : ∀ x ∈ l, ∀ y ∈ m, seq x = seq y → latest seq rows x = y := by
    intro x hx y hy hxy
    rcases latest_mem seq rows x with hin | ⟨hsame, hnone⟩
    · have hfound := hrows _ hin (by
        rw [latest_seq seq]
        exact List.mem_map_of_mem hx)
      exact unique (s := ⟨m, hm'⟩) hfound hy ((latest_seq seq rows x).trans hxy)
    · rw [hsame]
      rcases hm y hy with hy' | hy'
      · exact absurd hxy.symm (hnone y hy')
      · exact unique (s := ⟨l, hl⟩) hx hy' hxy
  have hsorted : (l.map (latest seq rows)).Pairwise fun a b => seq a < seq b := by
    refine hl.map _ fun a b h => ?_
    rwa [latest_seq seq, latest_seq seq]
  refine sorted_ext hsorted hm' fun y => ?_
  constructor
  · intro hy
    obtain ⟨x, hx, rfl⟩ := List.mem_map.1 hy
    have hin : seq x ∈ m.map seq := hseq ▸ List.mem_map_of_mem hx
    obtain ⟨y, hy, hyx⟩ := List.mem_map.1 hin
    exact hlatest x hx y hy hyx.symm ▸ hy
  · intro hy
    have hin : seq y ∈ l.map seq := hseq ▸ List.mem_map_of_mem hy
    obtain ⟨x, hx, hxy⟩ := List.mem_map.1 hin
    exact hlatest x hx y hy hxy ▸ List.mem_map_of_mem hx

/-- A row in the place of one that stands. -/
theorem put_of_mem (h : ∃ x ∈ s, seq x = seq r) :
    s.put r = s.revise (latest seq [r]) (latest_seq seq [r]) := by
  refine ext_mem fun x => ?_
  have hone : ∀ y, latest seq [r] y = if seq r = seq y then r else y := fun y =>
    latest_concat seq [] r y
  rw [mem_put, mem_def (s := s.revise _ _), revise]
  simp only [List.mem_map, hone]
  constructor
  · rintro (rfl | ⟨hx, hne⟩)
    · obtain ⟨y, hy, hyr⟩ := h
      exact ⟨y, hy, if_pos hyr.symm⟩
    · exact ⟨x, hx, if_neg (Ne.symm hne)⟩
  · rintro ⟨y, hy, rfl⟩
    split
    · exact .inl rfl
    · rename_i hne
      exact .inr ⟨hy, Ne.symm hne⟩

/-- **Rows in the places of rows that stand** change those in place, the last one of a number
winning. -/
theorem putAll_of_mem {rows : List ρ} (h : ∀ r ∈ rows, ∃ x ∈ s, seq x = seq r) :
    s.putAll rows = s.revise (latest seq rows) (latest_seq seq rows) := by
  induction rows using List.reverseRecOn with
  | nil =>
    refine ext_mem fun x => ?_
    rw [mem_def (s := s.revise _ _), revise]
    simp [latest, mem_def]
  | append_singleton rows r ih =>
    have hrows := ih fun r hr => h r (List.mem_append_left _ hr)
    obtain ⟨y, hy, hyr⟩ := h r (List.mem_append_right _ List.mem_cons_self)
    rw [putAll, List.foldl_concat, ← putAll, hrows, put_of_mem]
    · refine ext_mem fun x => ?_
      simp only [mem_def, revise, List.mem_map, exists_exists_and_eq_and]
      refine exists_congr fun z => and_congr_right fun _ => ?_
      have hone : latest seq [r] (latest seq rows z) =
          if seq r = seq (latest seq rows z) then r else latest seq rows z :=
        latest_concat seq [] r _
      rw [hone, latest_concat, latest_seq seq rows z]
    · exact ⟨latest seq rows y, List.mem_map_of_mem hy, (latest_seq seq rows y).trans hyr⟩

/-- Rows out by their numbers. -/
def remove (s : Sequence seq) (ns : List Nat) : Sequence seq :=
  ⟨s.rows.filter fun x => seq x ∉ ns, s.sorted.filter _⟩

@[simp] theorem mem_remove {ns : List Nat} : x ∈ s.remove ns ↔ x ∈ s ∧ seq x ∉ ns := by
  simp [mem_def, remove]

@[simp] theorem remove_nil : s.remove [] = s := ext_mem fun x => by simp

/-- The number of the next row. -/
def next (s : Sequence seq) : Nat := (s.rows.getLast?.elim 0 seq) + 1

theorem lt_next (hx : x ∈ s) : seq x < s.next := by
  obtain ⟨front, last, hrows⟩ : ∃ front last, s.rows = front ++ [last] :=
    ⟨_, _, (List.dropLast_concat_getLast (List.ne_nil_of_mem hx)).symm⟩
  have hnext : s.next = seq last + 1 := by
    rw [next, hrows, List.getLast?_concat]
    rfl
  have hsorted := s.sorted
  rw [hrows] at hsorted
  rw [mem_def, hrows, List.mem_append, List.mem_singleton] at hx
  rw [hnext]
  rcases hx with hx | rfl
  · have := (List.pairwise_append.1 hsorted).2.2 x hx last (by simp)
    omega
  · omega

end Sequence

end Huliho
