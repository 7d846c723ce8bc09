import Mathlib.Data.List.Basic
import Huliho.Lib.Table

/-!
# Records

A record holds at most one value a key, in the order the keys came. It is a table whose rows differ
in their key, so what a statement does to a table it does to a record: `put` sets one value, `only`
keeps some keys, `mapped` changes the values. Each has one lemma about `get`.

`firsts` is a list without its repetitions, each item where it came first.
-/

namespace Huliho

/-- A list without its repetitions, each item where it came first. -/
def firsts {α : Type*} [DecidableEq α] : List α → List α
  | [] => []
  | a :: l => a :: (firsts l).filter (· ≠ a)

section Firsts

variable {α : Type*} [DecidableEq α]

@[simp] theorem mem_firsts {l : List α} {a : α} : a ∈ firsts l ↔ a ∈ l := by
  induction l with
  | nil => rfl
  | cons b l ih =>
    rw [firsts, List.mem_cons, List.mem_cons, List.mem_filter, ih, decide_eq_true_eq]
    by_cases h : a = b <;> simp [h]

theorem nodup_firsts (l : List α) : (firsts l).Nodup := by
  induction l with
  | nil => exact List.nodup_nil
  | cons b l ih =>
    refine List.nodup_cons.2 ⟨fun h => ?_, ih.filter _⟩
    exact of_decide_eq_true (List.mem_filter.1 h).2 rfl

end Firsts

/-- One value a key. -/
abbrev Record (κ β : Type*) := Table fun a b : κ × β => a.1 ≠ b.1

namespace Record

variable {κ β : Type*} [DecidableEq κ] {r : Record κ β} {k j : κ} {v : β}

instance : Std.Symm fun a b : κ × β => a.1 ≠ b.1 := ⟨fun _ _ => Ne.symm⟩

/-- The value of a key. -/
def get (r : Record κ β) (k : κ) : Option β := (r.find? fun p => p.1 = k).map Prod.snd

theorem get_eq_some : r.get k = some v ↔ (k, v) ∈ r := by
  unfold get
  constructor
  · intro h
    obtain ⟨⟨j, w⟩, hf, rfl⟩ := Option.map_eq_some_iff.1 h
    obtain ⟨hm, rfl⟩ := Table.mem_of_find? hf
    exact hm
  · intro h
    have hone : ∀ p ∈ r, p.1 = k → p = (k, v) :=
      fun p hp hk => r.unique hp h (not_not.2 hk)
    rw [Table.find?_eq_some (p := fun p : κ × β => p.1 = k) h rfl hone]
    rfl

theorem get_eq_none : r.get k = none ↔ ∀ v, (k, v) ∉ r := by
  rw [Option.eq_none_iff_forall_ne_some]
  exact forall_congr' fun v => not_congr get_eq_some

/-- The values with a function of key and value laid over them. -/
def mapped (r : Record κ β) (f : κ → β → β) : Record κ β :=
  r.revise (fun p => (p.1, f p.1 p.2)) fun _ _ h => h

@[simp] theorem get_mapped {f : κ → β → β} : (r.mapped f).get k = (r.get k).map (f k) := by
  cases h : r.get k with
  | some v =>
    rw [get_eq_some] at h
    exact get_eq_some.2 ((Table.mem_revise _).2 ⟨(k, v), h, rfl⟩)
  | none =>
    rw [get_eq_none] at h
    refine get_eq_none.2 fun w hw => ?_
    obtain ⟨⟨j, v⟩, hm, heq⟩ := (Table.mem_revise _).1 hw
    obtain ⟨rfl, -⟩ := Prod.mk.inj heq
    exact h v hm

/-- The keys that meet a condition. -/
def only (r : Record κ β) (p : κ → Prop) [DecidablePred p] : Record κ β :=
  r.delete fun row => ¬ p row.1

@[simp] theorem get_only {p : κ → Prop} [DecidablePred p] :
    (r.only p).get k = if p k then r.get k else none := by
  split
  · rename_i hp
    cases h : r.get k with
    | some v => exact get_eq_some.2 (Table.mem_delete.2 ⟨get_eq_some.1 h, not_not.2 hp⟩)
    | none =>
      refine get_eq_none.2 fun v hv => ?_
      exact get_eq_none.1 h v (Table.mem_delete.1 hv).1
  · rename_i hp
    exact get_eq_none.2 fun v hv => (Table.mem_delete.1 hv).2 hp

/-- A key keeps its value unless the deletion named it. -/
theorem get_delete {p : κ × β → Prop} [DecidablePred p] :
    get (r.delete p) k = (r.get k).filter fun v => ¬ p (k, v) := by
  cases h : r.get k with
  | some v =>
    rw [Option.filter_some]
    split
    · rename_i hp
      exact get_eq_some.2 (Table.mem_delete.2 ⟨get_eq_some.1 h, of_decide_eq_true hp⟩)
    · rename_i hp
      refine get_eq_none.2 fun w hw => ?_
      obtain ⟨hm, hnot⟩ := Table.mem_delete.1 hw
      have hw : w = v := Option.some.inj ((get_eq_some.2 hm).symm.trans h)
      exact hp (decide_eq_true (hw ▸ hnot))
  | none => exact get_eq_none.2 fun v hv => get_eq_none.1 h v (Table.mem_delete.1 hv).1

/-- One value set, a key that is new coming last. -/
def put (r : Record κ β) (k : κ) (v : β) : Record κ β :=
  r.upsert (fun p => (p.1, if p.1 = k then v else p.2)) (fun _ _ h => h) (k, v)

theorem mem_put {p : κ × β} : p ∈ r.put k v ↔ (p ∈ r ∧ p.1 ≠ k) ∨ p = (k, v) := by
  have hkept : ∀ p : κ × β, p.1 ≠ (k, v).1 → (p.1, if p.1 = k then v else p.2) = p :=
    fun p hp => by rw [if_neg hp]
  have hhit : ∀ p : κ × β, ¬ p.1 ≠ (k, v).1 → ¬ (p.1, if p.1 = k then v else p.2).1 ≠ (k, v).1 :=
    fun p hp => hp
  rw [put, Table.mem_upsert (f := fun p => (p.1, if p.1 = k then v else p.2)) hkept hhit]
  constructor
  · rintro (⟨hm, hp⟩ | ⟨q, -, hq, rfl⟩ | ⟨rfl, -⟩)
    · exact .inl ⟨hm, hp⟩
    · have hq := not_not.1 hq
      exact .inr (by rw [if_pos hq, hq])
    · exact .inr rfl
  · rintro (⟨hm, hp⟩ | rfl)
    · exact .inl ⟨hm, hp⟩
    · by_cases h : ∀ q ∈ r, q.1 ≠ k
      · exact .inr (.inr ⟨rfl, h⟩)
      · obtain ⟨q, hm, hq⟩ : ∃ q ∈ r, q.1 = k := by simpa using h
        exact .inr (.inl ⟨q, hm, not_not.2 hq, by rw [if_pos hq, hq]⟩)

@[simp] theorem get_put : (r.put k v).get j = if j = k then some v else r.get j := by
  split
  · rename_i h
    exact get_eq_some.2 (mem_put.2 (.inr (by rw [h])))
  · rename_i h
    cases hg : r.get j with
    | some w => exact get_eq_some.2 (mem_put.2 (.inl ⟨get_eq_some.1 hg, h⟩))
    | none =>
      refine get_eq_none.2 fun w hw => ?_
      rcases mem_put.1 hw with ⟨hm, -⟩ | heq
      · exact get_eq_none.1 hg w hm
      · exact h (Prod.mk.inj heq).1

/-- A record of the keys of a list that have a value. -/
def gather (keys : List κ) (f : κ → Option β) : Record κ β where
  rows := (firsts keys).filterMap fun k => (f k).map fun v => (k, v)
  apart := by
    refine List.Pairwise.filterMap _ (fun a b hab p hp q hq => ?_) (nodup_firsts keys)
    obtain ⟨v, -, rfl⟩ := Option.map_eq_some_iff.1 (Option.mem_def.1 hp)
    obtain ⟨w, -, rfl⟩ := Option.map_eq_some_iff.1 (Option.mem_def.1 hq)
    exact hab

@[simp] theorem get_gather {keys : List κ} {f : κ → Option β} :
    (gather keys f).get k = if k ∈ keys then f k else none := by
  have hmem : ∀ v, (k, v) ∈ gather keys f ↔ k ∈ keys ∧ f k = some v := by
    intro v
    rw [Table.mem_def]
    simp only [gather, List.mem_filterMap, mem_firsts, Option.map_eq_some_iff, Prod.mk.injEq]
    constructor
    · rintro ⟨j, hj, w, hw, rfl, rfl⟩
      exact ⟨hj, hw⟩
    · rintro ⟨hk, hv⟩
      exact ⟨k, hk, v, hv, rfl, rfl⟩
  split
  · rename_i hk
    cases h : f k with
    | some v => exact get_eq_some.2 ((hmem v).2 ⟨hk, h⟩)
    | none =>
      refine get_eq_none.2 fun v hv => ?_
      rw [((hmem v).1 hv).2] at h
      cases h
  · rename_i hk
    exact get_eq_none.2 fun v hv => hk ((hmem v).1 hv).1

/-- The values in order. -/
def values (r : Record κ β) : List β := r.rows.map Prod.snd

end Record

end Huliho
