import Mathlib.Data.Finset.Basic
import Mathlib.Data.Finset.Union

/-!
# Patches of sets

A patch says of some members of a set whether they are in or out: `gain` and `lose`, which share
nothing. It is laid over a set (`applied`), it has an `inverse` at that set — **`inverse_applied`**
takes it back — and two patches are one (`after`, the later winning). `merged` is what a list of
patches does as one.
-/

namespace Huliho

/-- What a patch puts in and what it takes out. -/
structure Patch (α : Type*) where
  gain : Finset α
  lose : Finset α
  apart : Disjoint gain lose

namespace Patch

variable {α : Type*} {p q : Patch α} {s : Finset α} {x : α}

theorem ext (hg : p.gain = q.gain) (hl : p.lose = q.lose) : p = q := by
  cases p
  cases q
  cases hg
  cases hl
  rfl

theorem not_both (hg : x ∈ p.gain) : x ∉ p.lose :=
  fun hl => Finset.disjoint_left.1 p.apart hg hl

variable [DecidableEq α]

instance : DecidableEq (Patch α) := fun p q =>
  decidable_of_iff (p.gain = q.gain ∧ p.lose = q.lose) <| by
    cases p
    cases q
    simp

/-- The patch that names nothing. -/
def nothing : Patch α := ⟨∅, ∅, Finset.disjoint_empty_left _⟩

/-- The members a patch speaks of. -/
def named (p : Patch α) : Finset α := p.gain ∪ p.lose

theorem mem_named : x ∈ p.named ↔ x ∈ p.gain ∨ x ∈ p.lose := Finset.mem_union

/-- The set with the patch laid over it. -/
def applied (p : Patch α) (s : Finset α) : Finset α := (s \ p.lose) ∪ p.gain

theorem mem_applied : x ∈ p.applied s ↔ x ∈ p.gain ∨ (x ∈ s ∧ x ∉ p.lose) := by
  simp only [applied, Finset.mem_union, Finset.mem_sdiff]
  exact or_comm

theorem mem_applied_gain (h : x ∈ p.gain) : x ∈ p.applied s := mem_applied.2 (.inl h)

theorem not_mem_applied_lose (h : x ∈ p.lose) : x ∉ p.applied s := by
  rw [mem_applied, not_or]
  exact ⟨fun hg => not_both hg h, fun hs => hs.2 h⟩

/-- What a patch does not name stays. -/
theorem mem_applied_of_not_named (h : x ∉ p.named) : x ∈ p.applied s ↔ x ∈ s := by
  rw [mem_named, not_or] at h
  rw [mem_applied]
  exact ⟨fun hx => (hx.resolve_left h.1).1, fun hx => .inr ⟨hx, h.2⟩⟩

@[simp] theorem applied_nothing : (nothing : Patch α).applied s = s := by
  ext x
  simp [mem_applied, nothing]

/-- The patch that takes it back: each named member as the set held it before. -/
def inverse (p : Patch α) (s : Finset α) : Patch α where
  gain := p.named.filter fun x => x ∈ s
  lose := p.named.filter fun x => x ∉ s
  apart := Finset.disjoint_filter_filter_not _ _ _

@[simp] theorem mem_inverse_gain : x ∈ (p.inverse s).gain ↔ x ∈ p.named ∧ x ∈ s :=
  Finset.mem_filter

@[simp] theorem mem_inverse_lose : x ∈ (p.inverse s).lose ↔ x ∈ p.named ∧ x ∉ s :=
  Finset.mem_filter

@[simp] theorem inverse_named : (p.inverse s).named = p.named := by
  ext x
  rw [mem_named, mem_inverse_gain, mem_inverse_lose, ← and_or_left]
  exact and_iff_left (Classical.em _)

/-- **The inverse takes the patch back.** -/
theorem inverse_applied (p : Patch α) (s : Finset α) : (p.inverse s).applied (p.applied s) = s := by
  ext x
  by_cases hx : x ∈ p.named
  · rw [mem_applied, mem_inverse_gain, mem_inverse_lose]
    tauto
  · have hinv : x ∉ (p.inverse s).named := by rwa [inverse_named]
    rw [mem_applied_of_not_named hinv, mem_applied_of_not_named hx]

/-- A patch that agrees with its inverse changes nothing. -/
theorem applied_eq_self (h : p.gain ⊆ (p.inverse s).gain) (h' : p.lose ⊆ (p.inverse s).lose) :
    p.applied s = s := by
  ext x
  rw [mem_applied]
  constructor
  · rintro (hx | hx)
    · exact (mem_inverse_gain.1 (h hx)).2
    · exact hx.1
  · intro hx
    exact .inr ⟨hx, fun hl => (mem_inverse_lose.1 (h' hl)).2 hx⟩

/-- Two patches as one, `q` after `p`. -/
def after (q p : Patch α) : Patch α where
  gain := (p.gain \ q.lose) ∪ q.gain
  lose := (p.lose \ q.gain) ∪ q.lose
  apart := by
    rw [Finset.disjoint_left]
    intro x hg hl
    simp only [Finset.mem_union, Finset.mem_sdiff] at hg hl
    rcases hg with ⟨hp, hq⟩ | hq
    · rcases hl with hl | hl
      · exact not_both hp hl.1
      · exact hq hl
    · rcases hl with hl | hl
      · exact hl.2 hq
      · exact not_both hq hl

theorem mem_after_gain : x ∈ (q.after p).gain ↔ x ∈ q.gain ∨ (x ∈ p.gain ∧ x ∉ q.lose) := by
  simp only [after, Finset.mem_union, Finset.mem_sdiff]
  exact or_comm

theorem mem_after_lose : x ∈ (q.after p).lose ↔ x ∈ q.lose ∨ (x ∈ p.lose ∧ x ∉ q.gain) := by
  simp only [after, Finset.mem_union, Finset.mem_sdiff]
  exact or_comm

theorem mem_after_named : x ∈ (q.after p).named ↔ x ∈ p.named ∨ x ∈ q.named := by
  rw [mem_named, mem_named, mem_named, mem_after_gain, mem_after_lose]
  tauto

/-- **Laying one after the other** is laying both at once. -/
theorem after_applied : (q.after p).applied s = q.applied (p.applied s) := by
  ext x
  rw [mem_applied, mem_applied, mem_applied, mem_after_gain, mem_after_lose]
  have : x ∈ q.gain → x ∉ q.lose := not_both
  tauto

/-- What a patch says of a member: in, out or nothing. -/
def word (p : Patch α) (x : α) : Option Bool :=
  if x ∈ p.gain then some true else if x ∈ p.lose then some false else none

@[simp] theorem word_eq_none : p.word x = none ↔ x ∉ p.named := by
  unfold word
  rw [mem_named]
  split
  · simp_all
  · split <;> simp_all

@[simp] theorem word_eq_true : p.word x = some true ↔ x ∈ p.gain := by
  unfold word
  split
  · simp_all
  · split <;> simp_all

@[simp] theorem word_eq_false : p.word x = some false ↔ x ∈ p.lose := by
  unfold word
  split
  · rename_i h
    simpa using not_both h
  · split <;> simp_all

/-- The patch has the word on what it names, the set on the rest. -/
theorem mem_applied_word : x ∈ p.applied s ↔ (p.word x).getD (decide (x ∈ s)) = true := by
  rw [mem_applied]
  cases h : p.word x with
  | none =>
    rw [word_eq_none, mem_named, not_or] at h
    simp [h.1, h.2]
  | some said =>
    cases said with
    | true => simp [word_eq_true.1 h]
    | false =>
      have hl := word_eq_false.1 h
      simpa [hl] using fun hg => not_both hg hl

theorem word_after : (q.after p).word x = (q.word x).or (p.word x) := by
  have hq : x ∈ q.gain → x ∉ q.lose := not_both
  have hp : x ∈ p.gain → x ∉ p.lose := not_both
  simp only [word, mem_after_gain, mem_after_lose]
  by_cases hqg : x ∈ q.gain
  · simp [hqg]
  · by_cases hql : x ∈ q.lose
    · simp [hqg, hql]
    · by_cases hpg : x ∈ p.gain <;> simp [hqg, hql, hpg]

theorem word_inverse : (p.inverse s).word x =
    if x ∈ p.named then some (decide (x ∈ s)) else none := by
  simp only [word, mem_inverse_gain, mem_inverse_lose]
  by_cases hn : x ∈ p.named <;> by_cases hs : x ∈ s <;> simp [hn, hs]

/-- A list of patches as one, a later one winning what an earlier one names. -/
def merged (ps : List (Patch α)) : Patch α := ps.foldl (fun p q => q.after p) nothing

theorem merged_concat (ps : List (Patch α)) : merged (ps ++ [q]) = q.after (merged ps) := by
  simp [merged]

theorem merged_applied (ps : List (Patch α)) :
    (merged ps).applied s = ps.foldl (fun s p => p.applied s) s := by
  induction ps using List.reverseRecOn with
  | nil => exact applied_nothing
  | append_singleton ps q ih => rw [merged_concat, after_applied, ih, List.foldl_concat]

theorem word_merged_concat (ps : List (Patch α)) :
    (merged (ps ++ [q])).word x = (q.word x).or ((merged ps).word x) := by
  rw [merged_concat, word_after]

/-- **The word of patches as one** on what one of them names is its own or a later one's. -/
theorem exists_word_merged {before rest : List (Patch α)} (h : x ∈ p.named) :
    ∃ r ∈ p :: rest, x ∈ r.named ∧ (merged (before ++ p :: rest)).word x = r.word x := by
  induction rest using List.reverseRecOn with
  | nil =>
    refine ⟨p, List.mem_cons_self, h, ?_⟩
    rw [word_merged_concat]
    cases hw : p.word x with
    | some said => rfl
    | none => exact absurd h (word_eq_none.1 hw)
  | append_singleton rest q ih =>
    obtain ⟨r, hr, hn, hw⟩ := ih
    rw [← List.cons_append, ← List.append_assoc, word_merged_concat]
    cases hq : q.word x with
    | some said =>
      refine ⟨q, by simp, ?_, hq.symm ▸ rfl⟩
      by_contra hx
      rw [word_eq_none.2 hx] at hq
      cases hq
    | none =>
      refine ⟨r, ?_, hn, hw⟩
      rcases List.mem_cons.1 hr with rfl | hr
      · exact List.mem_cons_self
      · exact List.mem_cons_of_mem _ (List.mem_append_left _ hr)

theorem mem_merged_named {ps : List (Patch α)} :
    x ∈ (merged ps).named ↔ ∃ p ∈ ps, x ∈ p.named := by
  induction ps using List.reverseRecOn with
  | nil => simp [merged, nothing, named]
  | append_singleton ps q ih => simp [merged_concat, mem_after_named, ih, or_and_right, exists_or]

end Patch

end Huliho
