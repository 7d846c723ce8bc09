import Mathlib.Data.Fin.Basic
import Mathlib.Data.List.Basic

/-!
# Base64 without padding

`sextets` cuts bytes into values of six bits, three bytes into four, and `octets` puts them together
again: it takes no lone sextet and no bit that stands for nothing. The two are inverse to each other
(**`octets_sextets`**, **`sextets_octets`**). An `Alphabet` gives every value its character and carries
that no two values share one; over it `encodeBase64` and `decodeBase64` are inverse in the same sense.
-/

namespace Huliho

/-- Bytes as values of six bits; the last bytes end in bits of zero. -/
def sextets : List UInt8 → List (Fin 64)
  | x :: y :: z :: rest =>
    .ofNat 64 (x.toNat / 4) :: .ofNat 64 (x.toNat % 4 * 16 + y.toNat / 16) ::
      .ofNat 64 (y.toNat % 16 * 4 + z.toNat / 64) :: .ofNat 64 (z.toNat % 64) :: sextets rest
  | [x, y] =>
    [.ofNat 64 (x.toNat / 4), .ofNat 64 (x.toNat % 4 * 16 + y.toNat / 16),
      .ofNat 64 (y.toNat % 16 * 4)]
  | [x] => [.ofNat 64 (x.toNat / 4), .ofNat 64 (x.toNat % 4 * 16)]
  | [] => []

/-- The bytes of some sextets; `none` for a lone last one and for a bit that stands for no byte. -/
def octets : List (Fin 64) → Option (List UInt8)
  | a :: b :: c :: d :: rest =>
    (octets rest).map fun bytes =>
      .ofNat (a.val * 4 + b.val / 16) :: .ofNat (b.val % 16 * 16 + c.val / 4) ::
        .ofNat (c.val % 4 * 64 + d.val) :: bytes
  | [a, b, c] =>
    if c.val % 4 = 0 then
      some [.ofNat (a.val * 4 + b.val / 16), .ofNat (b.val % 16 * 16 + c.val / 4)]
    else none
  | [a, b] => if b.val % 16 = 0 then some [.ofNat (a.val * 4 + b.val / 16)] else none
  | [_] => none
  | [] => some []

section

variable {bytes : List UInt8} {values : List (Fin 64)}

theorem ofNat_eq_byte {x : UInt8} {n : Nat} (h : n = x.toNat) : UInt8.ofNat n = x := by
  rw [h, UInt8.ofNat_toNat]

theorem ofNat_eq_sextet {v : Fin 64} {n : Nat} (h : n = v.val) : Fin.ofNat 64 n = v := by
  rw [h, Fin.ofNat_val_eq_self]

/-- **The bytes are put together again.** -/
theorem octets_sextets (bytes : List UInt8) : octets (sextets bytes) = some bytes := by
  fun_induction sextets bytes with
  | case1 x y z rest ih =>
    have hx := x.toNat_lt
    have hy := y.toNat_lt
    have hz := z.toNat_lt
    rw [octets, ih]
    simp only [Fin.val_ofNat, Option.map_some, Option.some.injEq, List.cons.injEq, and_true]
    refine ⟨?_, ?_, ?_⟩ <;> apply ofNat_eq_byte <;> omega
  | case2 x y =>
    have hx := x.toNat_lt
    have hy := y.toNat_lt
    rw [octets, if_pos]
    · simp only [Fin.val_ofNat, Option.some.injEq, List.cons.injEq, and_true]
      refine ⟨?_, ?_⟩ <;> apply ofNat_eq_byte <;> omega
    · rw [Fin.val_ofNat]
      omega
  | case3 x =>
    have hx := x.toNat_lt
    rw [octets, if_pos]
    · simp only [Fin.val_ofNat, Option.some.injEq, List.cons.injEq, and_true]
      apply ofNat_eq_byte
      omega
    · rw [Fin.val_ofNat]
      omega
  | case4 => rfl

/-- **Sextets that are taken are those of their bytes.** -/
theorem sextets_octets (h : octets values = some bytes) : sextets bytes = values := by
  induction values using octets.induct generalizing bytes with
  | case1 a b c d rest ih =>
    rw [octets, Option.map_eq_some_iff] at h
    obtain ⟨tail, htail, rfl⟩ := h
    have ha := a.isLt
    have hb := b.isLt
    have hc := c.isLt
    have hd := d.isLt
    rw [sextets, ih htail]
    simp only [UInt8.toNat_ofNat', List.cons.injEq, and_true]
    refine ⟨?_, ?_, ?_, ?_⟩ <;> apply ofNat_eq_sextet <;> omega
  | case2 a b c hzero =>
    rw [octets, if_pos hzero] at h
    obtain rfl := Option.some.inj h
    have ha := a.isLt
    have hb := b.isLt
    have hc := c.isLt
    rw [sextets]
    simp only [UInt8.toNat_ofNat', List.cons.injEq, and_true]
    refine ⟨?_, ?_, ?_⟩ <;> apply ofNat_eq_sextet <;> omega
  | case3 a b c hbits =>
    rw [octets, if_neg hbits] at h
    cases h
  | case4 a b hzero =>
    rw [octets, if_pos hzero] at h
    obtain rfl := Option.some.inj h
    have ha := a.isLt
    have hb := b.isLt
    rw [sextets]
    simp only [UInt8.toNat_ofNat', List.cons.injEq, and_true]
    refine ⟨?_, ?_⟩ <;> apply ofNat_eq_sextet <;> omega
  | case5 a b hbits =>
    rw [octets, if_neg hbits] at h
    cases h
  | case6 a => cases h
  | case7 =>
    obtain rfl := Option.some.inj h
    rfl

end

/-! ## Characters -/

/-- The characters of the sixty-four values, no two alike. -/
structure Alphabet where
  symbol : Fin 64 → Char
  injective : ∀ v w, symbol v = symbol w → v = w

namespace Alphabet

variable {alphabet : Alphabet} {c : Char} {v : Fin 64} {bytes : List UInt8} {coded : List Char}

/-- The value a character stands for. -/
def value (alphabet : Alphabet) (c : Char) : Option (Fin 64) :=
  (List.finRange 64).find? fun v => alphabet.symbol v = c

theorem value_eq_some : alphabet.value c = some v ↔ alphabet.symbol v = c := by
  have hfound : ∀ {w}, alphabet.value c = some w → alphabet.symbol w = c := by
    intro w h
    have hholds := List.find?_some h
    exact of_decide_eq_true hholds
  refine ⟨hfound, fun h => ?_⟩
  cases hfind : alphabet.value c with
  | none =>
    rw [value, List.find?_eq_none] at hfind
    exact absurd (decide_eq_true h) (hfind v (List.mem_finRange v))
  | some w => exact congrArg some (alphabet.injective w v ((hfound hfind).trans h.symm))

def encodeBase64 (alphabet : Alphabet) (bytes : List UInt8) : List Char :=
  (sextets bytes).map alphabet.symbol

def decodeBase64 (alphabet : Alphabet) (coded : List Char) : Option (List UInt8) :=
  (coded.mapM alphabet.value).bind octets

theorem mapM_value {values : List (Fin 64)} :
    coded.mapM alphabet.value = some values ↔ values.map alphabet.symbol = coded := by
  induction coded generalizing values with
  | nil =>
    rw [List.mapM_nil, List.map_eq_nil_iff]
    exact ⟨fun h => (Option.some.inj h).symm, fun h => congrArg some h.symm⟩
  | cons c coded ih =>
    rw [List.mapM_cons]
    simp only [Option.bind_eq_bind, Option.bind_eq_some_iff, value_eq_some, ih, Option.pure_def,
      Option.some.injEq]
    constructor
    · rintro ⟨v, rfl, rest, rfl, rfl⟩
      rfl
    · intro h
      obtain ⟨v, rest, rfl, hv, hrest⟩ := List.map_eq_cons_iff.1 h
      exact ⟨v, hv, rest, hrest, rfl⟩

/-- **What is encoded is decoded to the same bytes.** -/
theorem decode_encode (bytes : List UInt8) :
    alphabet.decodeBase64 (alphabet.encodeBase64 bytes) = some bytes := by
  rw [decodeBase64, encodeBase64, mapM_value.2 rfl, Option.bind_some, octets_sextets]

/-- **What is decoded is the encoding of its bytes.** -/
theorem encode_decode (h : alphabet.decodeBase64 coded = some bytes) :
    alphabet.encodeBase64 bytes = coded := by
  obtain ⟨values, hvalues, hbytes⟩ := Option.bind_eq_some_iff.1 h
  rw [encodeBase64, sextets_octets hbytes, mapM_value.1 hvalues]

end Alphabet

end Huliho
