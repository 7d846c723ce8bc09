import Mathlib.Data.List.Perm.Subperm
import Mathlib.Data.List.Sort
import Huliho.Search.Pieces

/-!
# The order of the tree

`tree-order.ts`: the roles first, then each folder with its children right after it. The walk goes
down from the top, and where no two mailboxes have one id no way down is longer than the folders are
many, so the fuel the walk is given here is enough (`walk_enough`).
-/

namespace Huliho.Search

/-- What the order and the field's text read of a mailbox. -/
structure Mailbox where
  id : Text
  name : Text
  parentId : Option Text
  role : Option Text
  sortOrder : Nat
deriving DecidableEq

/-- The special-use roles in the order the tree draws them. -/
def ROLE_ORDER : List Text :=
  ["inbox", "drafts", "sent", "archive", "junk", "trash"].map String.toList

/-- How the tree sorts: by `sortOrder`, and then by name as the locale compares names. -/
def sorts (compare : Text → Text → Int) (first second : Mailbox) : Prop :=
  first.sortOrder < second.sortOrder ∨
    first.sortOrder = second.sortOrder ∧ compare first.name second.name ≤ 0

instance (compare : Text → Text → Int) : DecidableRel (sorts compare) :=
  fun _ _ => inferInstanceAs (Decidable (_ ∨ _))

/-- Where a folder stands: under its parent where that is a folder, else at the top. -/
def placed (folders : List Mailbox) (row : Mailbox) : Option Text :=
  row.parentId.filter fun parent => parent ∈ folders.map Mailbox.id

/-- The folders under a parent, or at the top. -/
def children (folders : List Mailbox) (parent : Option Text) : List Mailbox :=
  folders.filter fun row => placed folders row = parent

/-- Each folder under the parent, and behind it what lies under it. -/
def walk (folders : List Mailbox) : Nat → Option Text → List Text
  | 0, _ => []
  | fuel + 1, parent =>
    (children folders parent).flatMap fun row => row.id :: walk folders fuel (some row.id)

/-- The mailbox ids in the order the tree draws them. -/
def treeOrder (compare : Text → Text → Int) (mailboxes : List Mailbox) : List Text :=
  let sorted := mailboxes.insertionSort (sorts compare)
  let roles := ROLE_ORDER.filterMap fun role => sorted.find? fun row => row.role = some role
  let folders := sorted.filter fun row => row.id ∉ roles.map Mailbox.id
  roles.map Mailbox.id ++ walk folders (folders.length + 1) none

/-! ## The way down -/

/-- The way down from the top to a parent, the parent first. -/
inductive Way (folders : List Mailbox) : List Mailbox → Option Text → Prop
  | top : Way folders [] none
  | down {way : List Mailbox} {parent : Option Text} {row : Mailbox} (h : Way folders way parent)
      (hrow : row ∈ children folders parent) : Way folders (row :: way) (some row.id)

variable {folders way rest : List Mailbox} {parent : Option Text} {row : Mailbox}

theorem Way.mem (h : Way folders way parent) (hrow : row ∈ way) : row ∈ folders := by
  induction h with
  | top => exact absurd hrow List.not_mem_nil
  | down _ hchild ih =>
    rcases List.mem_cons.1 hrow with rfl | hrow
    · exact (List.mem_filter.1 hchild).1
    · exact ih hrow

/-- A row of the way stands where the rows behind it lead. -/
theorem Way.split (h : Way folders way parent) {before : List Mailbox}
    (hsplit : way = before ++ row :: rest) : Way folders rest (placed folders row) := by
  induction h generalizing before with
  | top => exact absurd hsplit (by simp)
  | @down way parent child hway hchild ih =>
    cases before with
    | nil =>
      obtain ⟨rfl, rfl⟩ := List.cons.inj hsplit
      rwa [of_decide_eq_true (List.mem_filter.1 hchild).2]
    | cons other before => exact ih (List.cons.inj hsplit).2

theorem Way.leads (h : Way folders way parent) : parent = way.head?.map Mailbox.id := by
  cases h with
  | top => rfl
  | down => rfl

/-- **No way down meets a folder twice.** -/
theorem Way.nodup (hids : (folders.map Mailbox.id).Nodup) (h : Way folders way parent) :
    way.Nodup := by
  induction h with
  | top => exact .nil
  | @down way parent child hway hchild ih =>
    refine List.nodup_cons.2 ⟨fun hmem => ?_, ih⟩
    obtain ⟨before, rest, hsplit⟩ := List.append_of_mem hmem
    -- Both the whole way and the rest of it lead to where the child stands.
    have hrest := hway.split hsplit
    rw [of_decide_eq_true (List.mem_filter.1 hchild).2] at hrest
    have hboth := hway.leads.symm.trans hrest.leads
    cases way with
    | nil => exact absurd hsplit (by simp)
    | cons last way =>
      cases rest with
      | nil => cases hboth
      | cons other rest =>
        have hin : other ∈ way := by
          cases before with
          | nil => rw [(List.cons.inj hsplit).2]; exact List.mem_cons_self
          | cons first before => rw [(List.cons.inj hsplit).2]; simp
        have hsame : last = other := List.inj_on_of_nodup_map hids
          (hway.mem List.mem_cons_self) (hway.mem (List.mem_cons_of_mem _ hin))
          (Option.some.inj hboth)
        exact (List.nodup_cons.1 ih).1 (hsame ▸ hin)

/-- **More fuel than the walk is given changes nothing** where no two folders have one id. -/
theorem walk_enough (hids : (folders.map Mailbox.id).Nodup) (h : Way folders way parent)
    {fuel : Nat} (hfuel : folders.length < way.length + fuel) (more : Nat) :
    walk folders (fuel + more) parent = walk folders fuel parent := by
  induction fuel generalizing way parent with
  | zero =>
    have hlength := ((h.nodup hids).subperm fun row => h.mem).length_le
    omega
  | succ fuel ih =>
    rw [Nat.add_right_comm, walk, walk]
    refine List.flatMap_congr fun row hrow => ?_
    rw [ih (h.down hrow) (by rw [List.length_cons]; omega)]

end Huliho.Search
