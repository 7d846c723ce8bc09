import Mathlib.Algebra.Order.Ring.Nat
import Mathlib.Data.List.Basic
import Mathlib.Data.List.Induction

/-!
# Values behind their length

`bytesOf width n` is a number in `width` bytes, the highest first, and `numberOf` reads it back; on
byte strings of one width the two are inverse (**`numberOf_bytesOf`**, **`bytesOf_numberOf`**). A body
is **framed** behind its length in such a number. What follows a frame never changes how the frame is
taken apart (**`take_framed`**, **`drop_framed`**), and a string that holds as many bytes as its first
ones state starts with a frame (**`eq_framed`**).
-/

namespace Huliho

variable {width : Nat} {body rest : List UInt8}

/-- The last bytes of a number in base 256, the highest first. -/
def bytesOf : Nat → Nat → List UInt8
  | 0, _ => []
  | width + 1, n => bytesOf width (n / 256) ++ [UInt8.ofNat n]

/-- The number some bytes are in base 256. -/
def numberOf (bytes : List UInt8) : Nat := bytes.foldl (fun n byte => n * 256 + byte.toNat) 0

@[simp] theorem length_bytesOf (width n : Nat) : (bytesOf width n).length = width := by
  induction width generalizing n with
  | zero => rfl
  | succ width ih => rw [bytesOf, List.length_append, ih, List.length_singleton]

theorem numberOf_append_singleton (bytes : List UInt8) (byte : UInt8) :
    numberOf (bytes ++ [byte]) = numberOf bytes * 256 + byte.toNat := by
  simp only [numberOf, List.foldl_append, List.foldl_cons, List.foldl_nil]

/-- **A number reads back from its bytes** when they are enough for it. -/
theorem numberOf_bytesOf {n : Nat} (h : n < 256 ^ width) : numberOf (bytesOf width n) = n := by
  induction width generalizing n with
  | zero =>
    obtain rfl : n = 0 := by simpa using h
    rfl
  | succ width ih =>
    have hhigh : n / 256 < 256 ^ width :=
      Nat.div_lt_of_lt_mul (by rwa [Nat.pow_succ, Nat.mul_comm] at h)
    have hlow : (UInt8.ofNat n).toNat = n % 256 := rfl
    rw [bytesOf, numberOf_append_singleton, ih hhigh, hlow]
    omega

/-- **Bytes are what their number is written in.** -/
theorem bytesOf_numberOf (bytes : List UInt8) : bytesOf bytes.length (numberOf bytes) = bytes := by
  induction bytes using List.reverseRecOn with
  | nil => rfl
  | append_singleton bytes byte ih =>
    have hbyte : byte.toNat < 256 := byte.toNat_lt
    have hhigh : (numberOf bytes * 256 + byte.toNat) / 256 = numberOf bytes := by omega
    have hlow : UInt8.ofNat (numberOf bytes * 256 + byte.toNat) = byte := by
      apply UInt8.toNat_inj.1
      rw [UInt8.toNat_ofNat']
      omega
    rw [List.length_append, List.length_singleton, numberOf_append_singleton, bytesOf, hhigh, ih, hlow]

/-! ## Frames -/

/-- A body behind its length. -/
def framed (width : Nat) (body : List UInt8) : List UInt8 := bytesOf width body.length ++ body

@[simp] theorem length_framed : (framed width body).length = width + body.length := by
  rw [framed, List.length_append, length_bytesOf]

theorem take_framed (h : body.length < 256 ^ width) :
    numberOf ((framed width body ++ rest).take width) = body.length := by
  rw [framed, List.append_assoc, List.take_left' (length_bytesOf width _), numberOf_bytesOf h]

theorem drop_framed : (framed width body ++ rest).drop width = body ++ rest := by
  rw [framed, List.append_assoc, List.drop_left' (length_bytesOf width _)]

/-- **A string that holds the bytes its first ones state starts with a frame.** -/
theorem eq_framed {input : List UInt8} (hwidth : width ≤ input.length)
    (hbody : numberOf (input.take width) ≤ (input.drop width).length) :
    input = framed width ((input.drop width).take (numberOf (input.take width))) ++
      (input.drop width).drop (numberOf (input.take width)) := by
  have hhead : bytesOf width (numberOf (input.take width)) = input.take width := by
    have hlength : (input.take width).length = width := List.length_take_of_le hwidth
    calc bytesOf width (numberOf (input.take width))
        = bytesOf (input.take width).length (numberOf (input.take width)) := by rw [hlength]
      _ = input.take width := bytesOf_numberOf _
  rw [framed, List.length_take_of_le hbody, hhead, List.append_assoc, List.take_append_drop,
    List.take_append_drop]

end Huliho
