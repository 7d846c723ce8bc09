import Mathlib.Logic.Function.Basic

/-!
# A lock that is thrown away

Tasks take turns on a lock that a table hands out: the table makes one for whoever comes first, and
somebody may take it out again, so two locks may be about at once. A task is **inside** from the moment
it was handed the lock until it needs it no more, and it **holds** the lock for a part of that time.

`Exclusive` says that everybody inside has the lock of the table and at most one task holds it. One
lemma for each thing a task does keeps it; only **`Exclusive.throw`**, the lock taken out of the table,
needs that nobody else is inside.
-/

namespace Huliho

/-- The lock of the table, the number of the next one and what each task is at, with its lock. -/
structure Turns (ι φ : Type*) where
  lock : Option Nat
  fresh : Nat
  tasks : ι → Option (Nat × φ)

namespace Turns

section
variable {ι φ : Type*} [DecidableEq ι] (s : Turns ι φ) (t : ι) (l : Nat) (phase : φ)

/-- A task is handed the lock of the table, made where there is none. -/
def arrive : Turns ι φ where
  lock := some (s.lock.getD s.fresh)
  fresh := if s.lock = none then s.fresh + 1 else s.fresh
  tasks := Function.update s.tasks t (some (s.lock.getD s.fresh, phase))

/-- A task goes on with the lock it has. -/
def go : Turns ι φ := { s with tasks := Function.update s.tasks t (some (l, phase)) }

/-- A task is done. -/
def finish : Turns ι φ := { s with tasks := Function.update s.tasks t none }

/-- A task is done and takes the lock out of the table, whichever that is. -/
def throw : Turns ι φ := { s with lock := none, tasks := Function.update s.tasks t none }

end

variable {ι φ : Type*} {inside holds : φ → Prop}

/-- Everybody inside has the lock of the table, and at most one task holds it. -/
structure Exclusive (inside holds : φ → Prop) (s : Turns ι φ) : Prop where
  current : ∀ t l phase, s.tasks t = some (l, phase) → inside phase → s.lock = some l
  alone : ∀ t u p q, s.tasks t = some p → s.tasks u = some q → holds p.2 → holds q.2 → t = u

variable {s : Turns ι φ} {t : ι} {l : Nat} {phase next : φ}

theorem exclusive_of_none (h : ∀ t, s.tasks t = none) : s.Exclusive inside holds where
  current t l phase ht := by
    rw [h t] at ht
    cases ht
  alone t u p q ht := by
    rw [h t] at ht
    cases ht

variable [DecidableEq ι]

/-- What a task is at after one task changed. -/
theorem tasks_update {tasks : ι → Option (Nat × φ)} {u : ι} {v p : Option (Nat × φ)}
    (h : Function.update tasks t v u = p) : u = t ∧ v = p ∨ u ≠ t ∧ tasks u = p := by
  by_cases hu : u = t
  · rw [hu, Function.update_self] at h
    exact .inl ⟨hu, h⟩
  · rw [Function.update_of_ne hu] at h
    exact .inr ⟨hu, h⟩

/-- One task may change, as long as it and the others inside have the lock of the table and it holds
none that another task holds. -/
theorem Exclusive.update (h : s.Exclusive inside holds) {lock : Option Nat} {fresh : Nat}
    {v : Option (Nat × φ)}
    (hothers : ∀ u m q, u ≠ t → s.tasks u = some (m, q) → inside q → lock = some m)
    (hown : ∀ m q, v = some (m, q) → inside q → lock = some m)
    (halone : ∀ p, v = some p → holds p.2 → ∀ u q, u ≠ t → s.tasks u = some q → ¬ holds q.2) :
    (⟨lock, fresh, Function.update s.tasks t v⟩ : Turns ι φ).Exclusive inside holds where
  current u m q hu hq := by
    rcases tasks_update hu with ⟨-, hu⟩ | ⟨hne, hu⟩
    · exact hown m q hu hq
    · exact hothers u m q hne hu hq
  alone u w p q hu hw hp hq := by
    rcases tasks_update hu with ⟨hut, hv⟩ | ⟨hut, hu'⟩
    · rcases tasks_update hw with ⟨hwt, -⟩ | ⟨hwt, hw'⟩
      · exact hut.trans hwt.symm
      · exact absurd hq (halone p hv hp w q hwt hw')
    · rcases tasks_update hw with ⟨-, hv⟩ | ⟨-, hw'⟩
      · exact absurd hp (halone q hv hq u p hut hu')
      · exact h.alone u w p q hu' hw' hp hq

/-- Who arrives holds nothing yet. -/
theorem Exclusive.arrive (h : s.Exclusive inside holds) (hphase : ¬ holds phase) :
    (s.arrive t phase).Exclusive inside holds := by
  refine h.update (fun u m q _ hu hq => ?_) (fun m q hv _ => ?_) fun p hp hholds => ?_
  · rw [h.current u m q hu hq]
    rfl
  · cases hv
    rfl
  · cases hp
    exact absurd hholds hphase

/-- A task inside may take its lock when nobody holds that. -/
theorem Exclusive.enter (h : s.Exclusive inside holds) (hsub : ∀ p, holds p → inside p)
    (ht : s.tasks t = some (l, phase)) (hin : inside phase)
    (hfree : ∀ u q, s.tasks u = some (l, q) → ¬ holds q) :
    (s.go t l next).Exclusive inside holds := by
  have hlock := h.current t l phase ht hin
  refine h.update (fun u m q _ hu hq => h.current u m q hu hq) (fun m q hv _ => ?_)
    fun p _ _ u q _ hu hq => ?_
  · cases hv
    exact hlock
  · have hsame : l = q.1 := by
      rw [h.current u q.1 q.2 hu (hsub _ hq), Option.some.injEq] at hlock
      exact hlock.symm
    exact hfree u q.2 (by rw [hu, hsame]) hq

/-- The task that holds the lock may go on with it. -/
theorem Exclusive.go (h : s.Exclusive inside holds) (hsub : ∀ p, holds p → inside p)
    (ht : s.tasks t = some (l, phase)) (hphase : holds phase) :
    (s.go t l next).Exclusive inside holds := by
  refine h.update (fun u m q _ hu hq => h.current u m q hu hq) (fun m q hv _ => ?_)
    fun p _ _ u q hne hu hq => ?_
  · cases hv
    exact h.current t _ phase ht (hsub _ hphase)
  · exact hne (h.alone u t q (l, phase) hu ht hq hphase)

/-- Any task may be done. -/
theorem Exclusive.finish (h : s.Exclusive inside holds) : (s.finish t).Exclusive inside holds :=
  h.update (fun u m q _ hu hq => h.current u m q hu hq) (fun _ _ hv => by cases hv)
    fun _ hv => by cases hv

/-- The lock may be taken out of the table when nobody else is inside. -/
theorem Exclusive.throw (h : s.Exclusive inside holds)
    (hnobody : ∀ u m q, u ≠ t → s.tasks u = some (m, q) → ¬ inside q) :
    (s.throw t).Exclusive inside holds :=
  h.update (fun u m q hne hu hq => absurd hq (hnobody u m q hne hu)) (fun _ _ hv => by cases hv)
    fun _ hv => by cases hv

end Turns

end Huliho
