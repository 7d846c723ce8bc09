import Huliho.Store.Changes

/-!
# The ledger of one write

`ledger.rs`: what one write did to each object, folded so the log gets one row per object and
sequence. A ledger is a table of entries, one per object, so `Ledger.kind` — the entry of an
object — says all about it: `kind_note` is what a note does, `entryAt_write` what `write` leaves in
the log. The order the entries are written in never shows, since each goes to a row of its own.
-/

namespace Huliho

/-- One entry: an object and what became of it. -/
abbrev Entry := Slot × ChangeKind

/-- One entry per object. -/
def Entry.Apart (a b : Entry) : Prop := a.1 ≠ b.1

instance : DecidableRel Entry.Apart := fun _ _ => inferInstanceAs (Decidable (¬ _))
instance : Std.Symm Entry.Apart := ⟨fun _ _ h => Ne.symm h⟩

/-- The changes of one transaction by object. -/
abbrev Ledger := Table Entry.Apart

namespace Ledger

/-- The entry of an object. -/
def kind (ledger : Ledger) (x : Slot) : Option ChangeKind :=
  (ledger.find? fun e => e.1 = x).map Prod.snd

/-- Notes one change. An object created and destroyed inside the write leaves the ledger; one a
client held that is created again reads as updated. -/
def note (ledger : Ledger) (x : Slot) (k : ChangeKind) : Ledger :=
  match fold (ledger.kind x) k with
  | some k => (ledger.delete fun e => e.1 = x).offer (x, k)
  | none => ledger.delete fun e => e.1 = x

def isEmpty (ledger : Ledger) : Bool := ledger.rows.isEmpty

/-- Writes every entry under `sequence`. -/
def write (ledger : Ledger) (t : Tables) (sequence : Nat) : Except StoreError Tables :=
  ledger.rows.foldlM (fun t e => log t sequence e.1 e.2) t

/-! ## What a note does -/

theorem kind_eq_some {ledger : Ledger} {x : Slot} {k : ChangeKind} :
    ledger.kind x = some k ↔ (x, k) ∈ ledger := by
  unfold kind
  constructor
  · intro h
    obtain ⟨e, hf, rfl⟩ := Option.map_eq_some_iff.1 h
    obtain ⟨he, rfl⟩ := Table.mem_of_find? hf
    exact he
  · intro he
    have hone : ∀ e ∈ ledger, e.1 = x → e = (x, k) := fun e hm hx =>
      ledger.unique hm he fun h => h hx
    rw [Table.find?_eq_some (p := fun e => e.1 = x) he rfl hone]
    rfl

@[simp] theorem kind_empty (x : Slot) : kind Table.empty x = none := rfl

theorem kind_note (ledger : Ledger) (x y : Slot) (k : ChangeKind) :
    (ledger.note x k).kind y = if y = x then fold (ledger.kind x) k else ledger.kind y := by
  apply Option.ext
  intro k'
  rw [kind_eq_some, note]
  cases hf : fold (ledger.kind x) k with
  | none =>
    rw [Table.mem_delete]
    by_cases hy : y = x
    · simp [hy]
    · simp [hy, kind_eq_some]
  | some k₁ =>
    have hfree : ∀ e ∈ ledger.delete (fun e => e.1 = x), Entry.Apart e (x, k₁) :=
      fun e he => (Table.mem_delete.1 he).2
    rw [Table.mem_offer, Table.mem_delete]
    by_cases hy : y = x
    · subst hy
      simp [Prod.ext_iff, eq_comm, Entry.Apart]
    · simp [hy, kind_eq_some]

@[simp] theorem kind_note_self (ledger : Ledger) (x : Slot) (k : ChangeKind) :
    (ledger.note x k).kind x = fold (ledger.kind x) k := by
  rw [kind_note, if_pos rfl]

theorem kind_note_of_ne {ledger : Ledger} {x y : Slot} {k : ChangeKind} (h : y ≠ x) :
    (ledger.note x k).kind y = ledger.kind y := by
  rw [kind_note, if_neg h]

/-- Noting the same objects as updated once more changes nothing. -/
theorem fold_updated_updated (e : Option ChangeKind) :
    fold (fold e .updated) .updated = fold e .updated := by
  rcases e with _ | ⟨_ | _ | _⟩ <;> rfl

/-- A run of notes that each say updated. -/
theorem kind_foldl_note {α : Type} (f : α → Slot) (y : Slot) :
    ∀ (l : List α) (ledger : Ledger),
      (l.foldl (fun ledger a => ledger.note (f a) .updated) ledger).kind y =
        if ∃ a ∈ l, f a = y then fold (ledger.kind y) .updated else ledger.kind y := by
  intro l
  induction l with
  | nil => intro ledger; simp
  | cons a l ih =>
    intro ledger
    rw [List.foldl_cons, ih]
    by_cases ha : f a = y
    · subst ha
      simp [fold_updated_updated]
    · have hn : (ledger.note (f a) .updated).kind y = ledger.kind y := kind_note_of_ne (Ne.symm ha)
      simp [ha, hn]

/-- A ledger without an entry is empty. -/
theorem isEmpty_iff {ledger : Ledger} : ledger.isEmpty ↔ ∀ x, ledger.kind x = none := by
  rw [isEmpty, List.isEmpty_iff]
  constructor
  · intro h x
    cases hk : ledger.kind x with
    | none => rfl
    | some k =>
      have he := kind_eq_some.1 hk
      rw [Table.mem_def, h] at he
      cases he
  · intro h
    apply List.eq_nil_iff_forall_not_mem.2
    rintro ⟨x, k⟩ he
    have hx := h x
    rw [kind_eq_some.2 he] at hx
    cases hx

/-! ## What `write` leaves in the log -/

/-- Entries logged one after another: each lands where the log had none. -/
theorem foldlM_log {s : Nat} :
    ∀ {es : List Entry} {t t' : Tables}, es.Pairwise Entry.Apart →
      es.foldlM (fun t e => log t s e.1 e.2) t = Except.ok t' →
      LogsUnder s t t' ∧ (∀ e ∈ es, entryAt t s e.1 = none ∧ entryAt t' s e.1 = some e.2) ∧
        ∀ y, (∀ k, (y, k) ∉ es) → entryAt t' s y = entryAt t s y := by
  intro es
  induction es with
  | nil =>
    intro t t' _ h
    obtain rfl : t = t' := by simpa [pure, Except.pure] using h
    exact ⟨.refl, by simp, fun _ _ => rfl⟩
  | cons e es ih =>
    intro t t' hp h
    obtain ⟨hhead, hp⟩ := List.pairwise_cons.1 hp
    rw [List.foldlM_cons, Except.bind_eq_ok] at h
    obtain ⟨t₁, h₁, h⟩ := h
    obtain ⟨hunder, hin, hout⟩ := ih hp h
    have hfirst : entryAt t₁ s e.1 = some e.2 := by
      rw [entryAt_log h₁, if_pos ⟨rfl, rfl⟩]
    have helse : ∀ y, y ≠ e.1 → entryAt t₁ s y = entryAt t s y := fun y hy => by
      rw [entryAt_log h₁, if_neg fun hc => hy hc.2]
    refine ⟨(LogsUnder.of_log h₁).trans hunder, ?_, ?_⟩
    · intro e' he'
      rcases List.mem_cons.1 he' with rfl | he'
      · refine ⟨by rw [← log_isOk (k := e'.2), h₁]; rfl, ?_⟩
        rw [hout _ fun k hk => hhead (e'.1, k) hk rfl, hfirst]
      · have hne : e'.1 ≠ e.1 := fun hc => hhead e' he' hc.symm
        rw [← helse _ hne]
        exact hin e' he'
    · intro y hy
      rw [hout y fun k hk => hy k (List.mem_cons_of_mem _ hk)]
      refine helse y fun hc => hy e.2 ?_
      rw [hc]
      exact List.mem_cons_self

/-- Entries of distinct objects go through exactly where the log has none of them yet. -/
theorem foldlM_log_isOk {s : Nat} :
    ∀ (es : List Entry) (t : Tables), es.Pairwise Entry.Apart →
      ((es.foldlM (fun t e => log t s e.1 e.2) t).isOk ↔ ∀ e ∈ es, entryAt t s e.1 = none) := by
  intro es
  induction es with
  | nil => intro t _; simp [pure, Except.pure, Except.isOk, Except.toBool]
  | cons e es ih =>
    intro t hp
    obtain ⟨hhead, hp⟩ := List.pairwise_cons.1 hp
    rw [List.foldlM_cons, List.forall_mem_cons, ← log_isOk (k := e.2)]
    cases h₁ : log t s e.1 e.2 with
    | error err => simp [bind, Except.bind, Except.isOk, Except.toBool]
    | ok t₁ =>
      have hrest : (∀ e' ∈ es, entryAt t₁ s e'.1 = none) ↔ ∀ e' ∈ es, entryAt t s e'.1 = none := by
        refine forall₂_congr fun e' he' => ?_
        rw [entryAt_log h₁, if_neg fun hc => hhead e' he' hc.2.symm]
      rw [← hrest, ← ih t₁ hp]
      simp [bind, Except.bind, Except.isOk, Except.toBool]

theorem logsUnder_write {ledger : Ledger} {t t' : Tables} {s : Nat}
    (h : ledger.write t s = .ok t') : LogsUnder s t t' := (foldlM_log ledger.apart h).1

/-- **After `write` the log holds the ledger**, on top of what it held under the sequence. -/
theorem entryAt_write {ledger : Ledger} {t t' : Tables} {s : Nat} (h : ledger.write t s = .ok t')
    (x : Slot) : entryAt t' s x = (ledger.kind x).or (entryAt t s x) := by
  obtain ⟨-, hin, hout⟩ := foldlM_log ledger.apart h
  cases hk : ledger.kind x with
  | none =>
    rw [Option.none_or]
    refine hout x fun k he => ?_
    have hsome := kind_eq_some.2 he
    rw [hk] at hsome
    cases hsome
  | some k => exact (hin _ (kind_eq_some.1 hk)).2

end Ledger

end Huliho
