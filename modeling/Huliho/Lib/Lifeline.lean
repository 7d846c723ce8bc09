import Huliho.Lib.Journal

/-!
# Lifelines

The kinds a log holds of one object, in order, are its **lifeline**. It is `Lawful` where the
kinds alternate — created, any number of updates, destroyed, created again — and `standing` is
whether the object stands at its end. Both speak of a lifeline cut anywhere, so they start from
whether the object stood at the cut, and both follow an append: `standing_append`,
`lawful_append`. `Agrees.lawful` is how a journal's entry carries one on.
-/

namespace Huliho

/-- Whether an object stands after a change of this kind. -/
def ChangeKind.leaves : ChangeKind → Bool
  | .created | .updated => true
  | .destroyed => false

/-- Whether an object stands at the end of a lifeline it entered standing or not. -/
def standing (alive : Bool) (kinds : List ChangeKind) : Bool :=
  kinds.foldl (fun _ kind => kind.leaves) alive

/-- Created, updates, destroyed, and so on: an object is created exactly where it does not
stand. -/
def Lawful : Bool → List ChangeKind → Prop
  | _, [] => True
  | alive, kind :: kinds => (kind = .created ↔ alive = false) ∧ Lawful kind.leaves kinds

instance Lawful.decidable : ∀ alive kinds, Decidable (Lawful alive kinds)
  | _, [] => inferInstanceAs (Decidable True)
  | _, kind :: kinds =>
    have := Lawful.decidable kind.leaves kinds
    inferInstanceAs (Decidable (_ ∧ _))

theorem standing_append (alive : Bool) (xs ys : List ChangeKind) :
    standing alive (xs ++ ys) = standing (standing alive xs) ys := by
  simp [standing]

theorem lawful_append {alive : Bool} {xs ys : List ChangeKind} :
    Lawful alive (xs ++ ys) ↔ Lawful alive xs ∧ Lawful (standing alive xs) ys := by
  induction xs generalizing alive with
  | nil => simp [Lawful, standing]
  | cons kind xs ih =>
    have hs : standing alive (kind :: xs) = standing kind.leaves xs := rfl
    rw [List.cons_append, Lawful, Lawful, ih, hs, and_assoc]

/-- An entry that is right goes on with a lifeline that was. -/
theorem Agrees.lawful {V : Type} {e : Option ChangeKind} {b a : Option V} (h : Agrees e b a) :
    Lawful b.isSome e.toList ∧ standing b.isSome e.toList = a.isSome := by
  cases e with
  | none => exact ⟨trivial, by rw [show a = b from h]; rfl⟩
  | some kind =>
    cases kind <;> cases b <;> cases a <;>
      simp_all [Agrees, ChangeKind.Between, Lawful, standing, ChangeKind.leaves]

end Huliho
