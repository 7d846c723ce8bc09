import Mathlib.Data.List.Pairwise

/-!
# Tables under uniqueness constraints

A relational table is a list of rows in which any two stand **apart**: `Apart a b` says that no
uniqueness constraint of the table (its primary key, every `UNIQUE` column list, a partial unique
index) is shared by the two rows. The relation is a parameter, so one library serves every table.

The statements of the query language become six operations:

* `insert?` is a plain `INSERT` — it fails where a constraint is hit;
* `offer` is an `INSERT … ON CONFLICT DO NOTHING`;
* `delete` is a `DELETE … WHERE`;
* `update?` is an `UPDATE … WHERE` that may touch a constrained column — it fails where two rows
  meet afterwards;
* `revise` is an `UPDATE` of unconstrained columns, which cannot fail;
* `upsert` is an `INSERT … ON CONFLICT DO UPDATE` of such columns.

Each has one membership lemma (`mem_insert?`, `mem_offer`, `mem_delete`, `mem_update?`,
`mem_revise`, `mem_upsert`), so a proof about a statement never looks at the list. `Table.unique` is what the
constraints are for: two rows that are not apart are one row.
-/

namespace Huliho

/-- Rows that pairwise stand apart: the constraints hold by construction. -/
structure Table {ρ : Type*} (Apart : ρ → ρ → Prop) where
  rows : List ρ
  apart : rows.Pairwise Apart

namespace Table

variable {ρ : Type*} {Apart : ρ → ρ → Prop}

instance : Membership ρ (Table Apart) := ⟨fun t r => r ∈ t.rows⟩

theorem mem_def {t : Table Apart} {r : ρ} : r ∈ t ↔ r ∈ t.rows := Iff.rfl

/-- The table without a row. -/
def empty : Table Apart := ⟨[], List.Pairwise.nil⟩

@[simp] theorem not_mem_empty {r : ρ} : r ∉ (empty : Table Apart) := List.not_mem_nil

/-- **Two rows that share a constraint are one row.** -/
theorem unique [Std.Symm Apart] {t : Table Apart} {r s : ρ} (hr : r ∈ t) (hs : s ∈ t)
    (h : ¬ Apart r s) : r = s := by
  by_contra hne
  exact h (t.apart.forall hr hs hne)

/-- The first row that meets the condition, as a query for one row reads it. -/
def find? (t : Table Apart) (p : ρ → Prop) [DecidablePred p] : Option ρ :=
  t.rows.find? fun r => decide (p r)

theorem mem_of_find? {t : Table Apart} {p : ρ → Prop} [DecidablePred p] {r : ρ}
    (h : t.find? p = some r) : r ∈ t ∧ p r := by
  refine ⟨List.mem_of_find?_eq_some h, ?_⟩
  have hp := List.find?_some h
  exact of_decide_eq_true hp

theorem find?_eq_none {t : Table Apart} {p : ρ → Prop} [DecidablePred p] :
    t.find? p = none ↔ ∀ r ∈ t, ¬ p r := by
  simp [find?, List.find?_eq_none, mem_def]

/-- A condition only one row can meet finds that row. -/
theorem find?_eq_some {t : Table Apart} {p : ρ → Prop} [DecidablePred p] {r : ρ} (hr : r ∈ t)
    (hp : p r) (h : ∀ s ∈ t, p s → s = r) : t.find? p = some r := by
  cases hf : t.find? p with
  | none => exact absurd hp (find?_eq_none.1 hf r hr)
  | some s =>
    obtain ⟨hs, hps⟩ := mem_of_find? hf
    rw [h s hs hps]

/-- `DELETE … WHERE p`. -/
def delete (t : Table Apart) (p : ρ → Prop) [DecidablePred p] : Table Apart :=
  ⟨t.rows.filter fun r => ¬ p r, t.apart.filter _⟩

@[simp] theorem mem_delete {t : Table Apart} {p : ρ → Prop} [DecidablePred p] {r : ρ} :
    r ∈ t.delete p ↔ r ∈ t ∧ ¬ p r := by
  simp [delete, mem_def]

/-- Two conditions that name the same rows delete the same rows. -/
theorem delete_congr {t : Table Apart} {p q : ρ → Prop} [DecidablePred p] [DecidablePred q]
    (h : ∀ r ∈ t, p r ↔ q r) : t.delete p = t.delete q := by
  have hrows : (t.delete p).rows = (t.delete q).rows :=
    List.filter_congr fun r hr => by simp [h r hr]
  cases hp : t.delete p
  cases hq : t.delete q
  rw [hp, hq] at hrows
  cases hrows
  rfl

/-- `UPDATE` of columns that no constraint reads: it keeps every two rows apart. -/
def revise (t : Table Apart) (f : ρ → ρ) (hf : ∀ a b, Apart a b → Apart (f a) (f b)) :
    Table Apart :=
  ⟨t.rows.map f, t.apart.map f hf⟩

@[simp] theorem mem_revise {t : Table Apart} {f : ρ → ρ}
    (hf : ∀ a b, Apart a b → Apart (f a) (f b)) {r : ρ} :
    r ∈ t.revise f hf ↔ ∃ s ∈ t, f s = r := by
  simp [revise, mem_def]

section Decidable

variable [DecidableRel Apart]

/-- A plain `INSERT`: `none` where a row of the table shares a constraint with the new one. -/
def insert? (t : Table Apart) (r : ρ) : Option (Table Apart) :=
  if h : ∀ s ∈ t.rows, Apart s r then
    some ⟨t.rows ++ [r], List.pairwise_append.2
      ⟨t.apart, List.pairwise_singleton _ _, by simpa using h⟩⟩
  else none

theorem insert?_eq_some {t t' : Table Apart} {r : ρ} (h : t.insert? r = some t') :
    (∀ s ∈ t, Apart s r) ∧ t'.rows = t.rows ++ [r] := by
  unfold insert? at h
  split at h
  · rename_i hr
    obtain rfl := Option.some.inj h
    exact ⟨hr, rfl⟩
  · cases h

theorem mem_insert? {t t' : Table Apart} {r s : ρ} (h : t.insert? r = some t') :
    s ∈ t' ↔ s ∈ t ∨ s = r := by
  rw [mem_def, (insert?_eq_some h).2]
  simp [mem_def]

theorem insert?_isSome {t : Table Apart} {r : ρ} :
    (t.insert? r).isSome ↔ ∀ s ∈ t, Apart s r := by
  unfold insert?
  split
  · rename_i h
    exact ⟨fun _ => h, fun _ => rfl⟩
  · rename_i h
    exact ⟨fun h' => by simp at h', fun h' => absurd h' h⟩

/-- `INSERT … ON CONFLICT DO NOTHING`. -/
def offer (t : Table Apart) (r : ρ) : Table Apart := (t.insert? r).getD t

theorem mem_offer {t : Table Apart} {r s : ρ} :
    s ∈ t.offer r ↔ s ∈ t ∨ (s = r ∧ ∀ x ∈ t, Apart x r) := by
  unfold offer
  cases h : t.insert? r with
  | none =>
    have hc : ¬ ∀ x ∈ t, Apart x r := by
      rw [← insert?_isSome, h]; simp
    simp [hc]
  | some t' =>
    have hc := (insert?_eq_some h).1
    simp only [Option.getD_some, mem_insert? h]
    constructor
    · rintro (hs | rfl)
      · exact .inl hs
      · exact .inr ⟨rfl, hc⟩
    · rintro (hs | ⟨rfl, -⟩)
      · exact .inl hs
      · exact .inr rfl

/-- `INSERT … ON CONFLICT DO UPDATE` where the conflict touches no constraint: every row the new
one collides with is changed in place by `f`, and only where there is none the new row goes in. -/
def upsert (t : Table Apart) (f : ρ → ρ) (hf : ∀ a b, Apart a b → Apart (f a) (f b)) (r : ρ) :
    Table Apart :=
  (t.revise f hf).offer r

/-- An upsert whose `f` changes the colliding rows alone and leaves them colliding. -/
theorem mem_upsert {t : Table Apart} {f : ρ → ρ} {hf : ∀ a b, Apart a b → Apart (f a) (f b)}
    {r x : ρ} (hkept : ∀ s, Apart s r → f s = s) (hhit : ∀ s, ¬ Apart s r → ¬ Apart (f s) r) :
    x ∈ t.upsert f hf r ↔ (x ∈ t ∧ Apart x r) ∨ (∃ s ∈ t, ¬ Apart s r ∧ f s = x) ∨
      (x = r ∧ ∀ s ∈ t, Apart s r) := by
  have hall : (∀ y, (∃ s ∈ t, f s = y) → Apart y r) ↔ ∀ s ∈ t, Apart s r := by
    constructor
    · intro h s hs
      by_contra hc
      exact hhit s hc (h _ ⟨s, hs, rfl⟩)
    · rintro h y ⟨s, hs, rfl⟩
      rw [hkept s (h s hs)]
      exact h s hs
  have hmem : x ∈ t.upsert f hf r ↔ (∃ s ∈ t, f s = x) ∨ (x = r ∧ ∀ s ∈ t, Apart s r) := by
    rw [← hall]
    simp [upsert, mem_offer]
  rw [hmem, ← or_assoc]
  refine or_congr_left ?_
  constructor
  · rintro ⟨s, hs, rfl⟩
    by_cases hc : Apart s r
    · rw [hkept s hc]
      exact .inl ⟨hs, hc⟩
    · exact .inr ⟨s, hs, hc, rfl⟩
  · rintro (⟨hx, hc⟩ | ⟨s, hs, -, hfs⟩)
    · exact ⟨x, hx, hkept x hc⟩
    · exact ⟨s, hs, hfs⟩

/-- `UPDATE … WHERE` of constrained columns: `none` where two rows meet afterwards. -/
def update? (t : Table Apart) (f : ρ → ρ) : Option (Table Apart) :=
  if h : (t.rows.map f).Pairwise Apart then some ⟨t.rows.map f, h⟩ else none

theorem mem_update? {t t' : Table Apart} {f : ρ → ρ} {r : ρ} (h : t.update? f = some t') :
    r ∈ t' ↔ ∃ s ∈ t, f s = r := by
  unfold update? at h
  split at h
  · obtain rfl := Option.some.inj h
    simp [mem_def]
  · cases h

/-- An update that keeps distinct rows apart goes through. -/
theorem update?_isSome {t : Table Apart} {f : ρ → ρ}
    (h : ∀ a ∈ t, ∀ b ∈ t, Apart a b → Apart (f a) (f b)) : (t.update? f).isSome := by
  have hp : (t.rows.map f).Pairwise Apart := by
    rw [List.pairwise_map]
    exact t.apart.imp_of_mem fun ha hb hab => h _ ha _ hb hab
  simp [update?, hp]

end Decidable

end Table

end Huliho
