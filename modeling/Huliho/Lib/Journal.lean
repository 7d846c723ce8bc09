import Mathlib.Logic.Basic
import Mathlib.Data.Option.Basic

/-!
# Journals of net change

A writer touches many objects, some of them several times, and keeps a **journal**: for every
object it touched one kind — created, updated or destroyed — that says what the whole write did to
it. Here an object is a slot `x : κ`, and what a reader sees of it is a value `view x : Option V`,
`none` while the object does not exist.

`ChangeKind.Between k b a` is what a kind says about the value before and after; `Agrees` is what
an entry, or the absence of one, says; `Tracks` says it of every slot. The one rule a proof about a
writer needs is **`Tracks.step`**: a step of the writer that, slot by slot, either leaves the slot
alone or notes the very kind the step took it through keeps the journal true. `fold` is how a note
lands on an entry that is there already.

A writer may move a value first and note it later. Such slots are **loose** in between: their
entry still has the existence right, not the value (`Loosely`).
-/

namespace Huliho

/-- What became of an object. -/
inductive ChangeKind
  | created
  | updated
  | destroyed
deriving DecidableEq, Repr

variable {κ V : Type*}

/-- The kind is right for an object that stood at `b` before and stands at `a` after. -/
def ChangeKind.Between : ChangeKind → Option V → Option V → Prop
  | .created, b, a => b = none ∧ a.isSome
  | .updated, b, a => b.isSome ∧ a.isSome
  | .destroyed, b, a => b.isSome ∧ a = none

/-- The kind an object's existence before and after calls for; `none` for one that existed at
neither end. -/
def ChangeKind.ofExistence : Bool → Bool → Option ChangeKind
  | false, true => some .created
  | true, true => some .updated
  | true, false => some .destroyed
  | false, false => none

theorem ChangeKind.Between.eq_ofExistence {k : ChangeKind} {b a : Option V} (h : k.Between b a) :
    some k = ChangeKind.ofExistence b.isSome a.isSome := by
  cases k <;> cases b <;> cases a <;> simp_all [ChangeKind.Between, ChangeKind.ofExistence]

/-- How a note lands on the entry the object has: created then destroyed leaves no entry, since
nobody ever saw the object, and one that was there before and is created again reads as updated. -/
def fold : Option ChangeKind → ChangeKind → Option ChangeKind
  | some .created, .destroyed => none
  | some .created, _ => some .created
  | some .destroyed, .created | some .updated, .created => some .updated
  | some .destroyed, _ => some .destroyed
  | _, kind => some kind

/-- The entry, or its absence, is right about an object that stood at `b` and stands at `a`. -/
def Agrees (e : Option ChangeKind) (b a : Option V) : Prop :=
  match e with
  | none => a = b
  | some k => k.Between b a

/-- The entry has the existence of the object right, not its value. -/
def Loosely (e : Option ChangeKind) (b a : Option V) : Prop :=
  match e with
  | none => a.isSome = b.isSome
  | some k => k.Between b a

theorem Agrees.loosely {e : Option ChangeKind} {b a : Option V} (h : Agrees e b a) :
    Loosely e b a := by
  cases e with
  | none => exact congrArg Option.isSome h
  | some k => exact h

/-- Only existence counts for a loose entry. -/
theorem Loosely.congr {e : Option ChangeKind} {b m a : Option V} (h : Loosely e b m)
    (hm : a.isSome = m.isSome) : Loosely e b a := by
  cases e with
  | none => exact hm.trans h
  | some k =>
    cases k <;> cases b <;> cases m <;> cases a <;>
      simp_all [Loosely, ChangeKind.Between]

/-- **A note is right afterwards**, on an entry that was at least loosely right before it. -/
theorem Loosely.fold {e : Option ChangeKind} {b m a : Option V} {k : ChangeKind}
    (h : Loosely e b m) (hk : k.Between m a) : Agrees (fold e k) b a := by
  cases k <;> cases e with
  | none =>
    cases b <;> cases m <;> cases a <;>
      simp_all [Loosely, Agrees, ChangeKind.Between, Huliho.fold]
  | some e =>
    cases e <;> cases b <;> cases m <;> cases a <;>
      simp_all [Loosely, Agrees, ChangeKind.Between, Huliho.fold]

/-- Every entry is right, up to the slots that are loose. -/
def Tracks (loose : κ → Prop) (entry : κ → Option ChangeKind) (before now : κ → Option V) : Prop :=
  ∀ x, Agrees (entry x) (before x) (now x) ∨ (loose x ∧ Loosely (entry x) (before x) (now x))

variable {loose loose' : κ → Prop} {entry entry' : κ → Option ChangeKind}
  {before mid now : κ → Option V}

/-- The journal of a write that has done nothing is empty. -/
theorem Tracks.refl : Tracks loose (fun _ => none) before before := fun _ => .inl rfl

theorem Tracks.loosely (h : Tracks loose entry before now) (x : κ) :
    Loosely (entry x) (before x) (now x) := by
  rcases h x with h | ⟨-, h⟩
  · exact h.loosely
  · exact h

theorem Tracks.agrees (h : Tracks (fun _ => False) entry before now) (x : κ) :
    Agrees (entry x) (before x) (now x) := by
  rcases h x with h | ⟨h, -⟩
  · exact h
  · exact h.elim

/-- What one step of a writer may do to one slot: leave it, note the kind it took it through, or
move its value and leave the note for later. -/
inductive Stepped (loose loose' : Prop) (e e' : Option ChangeKind) (m n : Option V) : Prop
  | kept (he : e' = e) (hn : n = m) (hl : loose → loose')
  | noted (k : ChangeKind) (he : e' = fold e k) (hk : k.Between m n)
  | loosened (he : e' = e) (hn : n.isSome = m.isSome) (hl : loose')

/-- **The step rule.** A step that does to every slot one of the three keeps the journal. -/
theorem Tracks.step (h : Tracks loose entry before mid)
    (hs : ∀ x, Stepped (loose x) (loose' x) (entry x) (entry' x) (mid x) (now x)) :
    Tracks loose' entry' before now := by
  intro x
  rcases hs x with ⟨he, hn, hl⟩ | ⟨k, he, hk⟩ | ⟨he, hn, hl⟩
  · rw [he, hn]
    exact (h x).imp_right fun ⟨hx, hx'⟩ => ⟨hl hx, hx'⟩
  · rw [he]
    exact .inl ((h.loosely x).fold hk)
  · rw [he]
    exact .inr ⟨hl, (h.loosely x).congr hn⟩

/-- What a finished journal says of an object that moved: it has an entry, of the kind its
existence calls for. -/
theorem Tracks.entry_of_ne (h : Tracks (fun _ => False) entry before now) {x : κ}
    (hx : now x ≠ before x) :
    ∃ k, entry x = some k ∧ some k = ChangeKind.ofExistence (before x).isSome (now x).isSome := by
  have ha := h.agrees x
  cases he : entry x with
  | none => rw [he] at ha; exact absurd ha hx
  | some k => rw [he] at ha; exact ⟨k, rfl, ha.eq_ofExistence⟩

end Huliho
