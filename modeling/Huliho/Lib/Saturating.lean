import Mathlib.Data.Int.Notation
import Mathlib.Order.Lattice

/-!
# Saturating arithmetic

Signed words of 64 bits as the integers they denote. An operation that **saturates** gives the
nearest word where the true result has none; one that **wraps** keeps the low bits.
-/

namespace Huliho

/-- The least signed word. -/
def minI64 : Int := -9223372036854775808

/-- The greatest signed word. -/
def maxI64 : Int := 9223372036854775807

/-- An integer a signed word denotes. -/
def InI64 (x : Int) : Prop := minI64 ≤ x ∧ x ≤ maxI64

instance (x : Int) : Decidable (InI64 x) := inferInstanceAs (Decidable (_ ∧ _))

/-- The word nearest to an integer. -/
def saturate (x : Int) : Int := max minI64 (min x maxI64)

def saturatingAdd (a b : Int) : Int := saturate (a + b)

def saturatingSub (a b : Int) : Int := saturate (a - b)

def saturatingMul (a b : Int) : Int := saturate (a * b)

/-- The low 64 bits of an integer, read as a signed word. -/
def wrap (x : Int) : Int := x.bmod 18446744073709551616

variable {x y : Int}

theorem saturate_of_inI64 (h : InI64 x) : saturate x = x := by
  unfold saturate
  rw [min_eq_left h.2, max_eq_right h.1]

/-- Past the top an integer saturates to it. -/
theorem saturate_of_le (h : minI64 ≤ x) : saturate x = min x maxI64 := by
  unfold saturate minI64 maxI64 at *
  omega

/-- Below the top, saturation keeps every strict comparison with a word from below. -/
theorem lt_saturate (hlo : minI64 ≤ y) (hhi : y < maxI64) : y < saturate x ↔ y < x := by
  unfold saturate minI64 maxI64 at *
  omega

/-- Above the bottom, saturation keeps every strict comparison with a word from above. -/
theorem saturate_lt (hlo : minI64 < y) (hhi : y ≤ maxI64) : saturate x < y ↔ x < y := by
  unfold saturate minI64 maxI64 at *
  omega

end Huliho
