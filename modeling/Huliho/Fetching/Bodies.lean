import Mathlib.Algebra.GroupWithZero.Nat
import Mathlib.Algebra.Order.BigOperators.Group.List
import Mathlib.Algebra.Order.Ring.Nat
import Mathlib.Data.List.Sort
import Huliho.Lib.Record

/-!
# The bodies a store keeps

`core/cache/bodies.ts` without its requests: the row an answer makes, when a row held answers an ask,
and `evict`, which picks the bodies fetched longest ago until the rest is inside both bounds
(**`evicted_inBounds`**).

A row's structure, its parts, its authentication and whether its text flows do not touch which bodies
a store holds and are left out.
-/

namespace Huliho.Fetching

abbrev AccountId := String

abbrev EmailId := String

def BODY_CACHE_ROWS : Nat := 500

/-- 64 MiB. -/
def BODY_CACHE_BYTES : Nat := 64 * 1024 * 1024

structure EmailBodyValue where
  value : String
  isTruncated : Bool
deriving DecidableEq

structure BodyAnswer where
  id : EmailId
  bodyValues : List (String × EmailBodyValue)
deriving DecidableEq

structure EmailBody where
  id : EmailId
  bodyValues : List (String × EmailBodyValue)
  large : Bool
  fetchedAt : Nat
  bytes : Nat
deriving DecidableEq

def isCut (body : EmailBody) : Bool := body.bodyValues.any fun part => part.2.isTruncated

/-- The UTF-8 weight of the values. -/
def weightOf (values : List (String × EmailBodyValue)) : Nat :=
  (values.map fun part => part.2.value.utf8ByteSize).sum

def rowOf (answer : BodyAnswer) (large : Bool) (now : Nat) : EmailBody where
  id := answer.id
  bodyValues := answer.bodyValues
  large
  fetchedAt := now
  bytes := weightOf answer.bodyValues

/-- Whether the row held answers an ask. -/
def answers (held : EmailBody) (large : Bool) : Bool := held.large || !large || !isCut held

/-- What `fetchBody` reads of the answer: none for an email the server does not have. -/
def fetchedOf (list : List BodyAnswer) (emailId : EmailId) (large : Bool) (now : Nat) :
    Option EmailBody :=
  (list.find? fun row => row.id = emailId).map fun answer => rowOf answer large now

/-- The stored bodies of every account. -/
abbrev Bodies := Record (AccountId × EmailId) EmailBody

structure BodySize where
  accountId : AccountId
  id : EmailId
  fetchedAt : Nat
  bytes : Nat
deriving DecidableEq

/-- A row's size as `bodySizes` answers it. -/
def sizeOf (row : (AccountId × EmailId) × EmailBody) : BodySize :=
  ⟨row.1.1, row.1.2, row.2.fetchedAt, row.2.bytes⟩

def bodySizes (bodies : Bodies) : List BodySize := bodies.rows.map sizeOf

/-- The loop of `evict`: the bodies that leave, from the one fetched longest ago on. -/
def leavingOf : List BodySize → Nat → Nat → List BodySize
  | [], _, _ => []
  | size :: sizes, rows, bytes =>
    if rows ≤ BODY_CACHE_ROWS ∧ bytes ≤ BODY_CACHE_BYTES then []
    else size :: leavingOf sizes (rows - 1) (bytes - size.bytes)

/-- The ids that leave, under their accounts. -/
abbrev Leaving := Record AccountId (List EmailId)

def Leaving.add (leaving : Leaving) (size : BodySize) : Leaving :=
  leaving.put size.accountId ((leaving.get size.accountId).getD [] ++ [size.id])

/-- What `evict` removes of the bodies it saw. -/
def evict (sizes : List BodySize) : Leaving :=
  let sizes := sizes.insertionSort fun a b => a.fetchedAt ≤ b.fetchedAt
  (leavingOf sizes sizes.length (sizes.map BodySize.bytes).sum).foldl Leaving.add Table.empty

/-- Whether some ids that leave name a body. -/
def Leaving.names (leaving : Leaving) (key : AccountId × EmailId) : Bool :=
  match leaving.get key.1 with
  | none => false
  | some ids => ids.contains key.2

/-! ## Both bounds -/

/-- Whether some bodies are inside both bounds. -/
def InBounds (sizes : List BodySize) : Prop :=
  sizes.length ≤ BODY_CACHE_ROWS ∧ (sizes.map BodySize.bytes).sum ≤ BODY_CACHE_BYTES

instance (sizes : List BodySize) : Decidable (InBounds sizes) := inferInstanceAs (Decidable (_ ∧ _))

section

variable {sizes leaving staying : List BodySize}

theorem inBounds_nil : InBounds [] := ⟨Nat.zero_le _, Nat.zero_le _⟩

/-- Fewer bodies stay inside the bounds. -/
theorem InBounds.sublist (h : InBounds sizes) (hsub : staying.Sublist sizes) :
    InBounds staying :=
  ⟨Nat.le_trans hsub.length_le h.1,
    Nat.le_trans ((hsub.map BodySize.bytes).sum_le_sum fun _ _ => Nat.zero_le _) h.2⟩

theorem InBounds.perm (h : InBounds sizes) (hperm : sizes.Perm staying) : InBounds staying :=
  ⟨hperm.length_eq ▸ h.1, (hperm.map BodySize.bytes).sum_eq ▸ h.2⟩

/-- The loop leaves a tail of the bodies, and that tail is inside both bounds. -/
theorem leavingOf_split (sizes : List BodySize) : ∃ staying, InBounds staying ∧
    sizes = leavingOf sizes sizes.length (sizes.map BodySize.bytes).sum ++ staying := by
  induction sizes with
  | nil => exact ⟨[], inBounds_nil, rfl⟩
  | cons size sizes ih =>
    rw [leavingOf]
    split
    · rename_i hin
      exact ⟨size :: sizes, hin, rfl⟩
    · obtain ⟨staying, hin, hsplit⟩ := ih
      refine ⟨staying, hin, ?_⟩
      rw [List.length_cons, Nat.add_sub_cancel, List.map_cons, List.sum_cons,
        Nat.add_sub_cancel_left, List.cons_append, ← hsplit]

theorem names_add {leaving : Leaving} {size : BodySize} {key : AccountId × EmailId} :
    (leaving.add size).names key = true ↔
      leaving.names key = true ∨ (size.accountId, size.id) = key := by
  rw [Leaving.names, Leaving.add, Record.get_put]
  by_cases heq : key.1 = size.accountId
  · obtain ⟨accountId, id⟩ := key
    obtain rfl : accountId = size.accountId := heq
    have hname : (size.accountId, size.id) = (size.accountId, id) ↔ id = size.id := by
      rw [Prod.mk.injEq, and_iff_right rfl, eq_comm]
    rw [if_pos rfl, Leaving.names, hname]
    cases leaving.get size.accountId <;> simp
  · rw [if_neg heq]
    have hne : (size.accountId, size.id) ≠ key := fun h => heq (h ▸ rfl)
    simp only [hne, or_false]
    rfl

theorem names_foldl {leaving : Leaving} {key : AccountId × EmailId} (sizes : List BodySize) :
    (sizes.foldl Leaving.add leaving).names key = true ↔
      leaving.names key = true ∨ ∃ size ∈ sizes, (size.accountId, size.id) = key := by
  induction sizes generalizing leaving with
  | nil => simp
  | cons size sizes ih =>
    rw [List.foldl_cons, ih, names_add, or_assoc, List.exists_mem_cons_iff]

theorem not_names_empty {key : AccountId × EmailId} : Leaving.names Table.empty key = false := rfl

/-- **What `evict` leaves of the bodies it saw is inside both bounds.** -/
theorem evicted_inBounds (sizes : List BodySize) :
    InBounds (sizes.filter fun size => !(evict sizes).names (size.accountId, size.id)) := by
  have hperm : (sizes.insertionSort fun a b => a.fetchedAt ≤ b.fetchedAt).Perm sizes :=
    List.perm_insertionSort _ sizes
  obtain ⟨staying, hin, hsplit⟩ :=
    leavingOf_split (sizes.insertionSort fun a b => a.fetchedAt ≤ b.fetchedAt)
  refine InBounds.perm ?_ (hperm.filter _)
  rw [hsplit, List.filter_append]
  -- Every body the loop picked is named.
  rw [List.filter_eq_nil_iff.2 ?_, List.nil_append]
  · exact hin.sublist List.filter_sublist
  · intro size hsize
    rw [Bool.not_eq_true, Bool.not_eq_false']
    exact (names_foldl _).2 (.inr ⟨size, hsize, rfl⟩)

end

end Huliho.Fetching
