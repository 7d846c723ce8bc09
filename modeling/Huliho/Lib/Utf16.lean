import Mathlib.Data.List.Basic

/-!
# Text in UTF-16

`utf16` is a character as one unit or as a pair of surrogates, `fromUtf16` the text of some units, none
where a surrogate stands alone; `bigEndian` and `units` are a unit as two bytes and back. A text comes
back from its units (**`fromUtf16_utf16`**), and units that are a text are the units of that text
(**`utf16_fromUtf16`**).
-/

namespace Huliho

/-- The units of a character: itself, or a high and a low surrogate. -/
def utf16 (c : Char) : List UInt16 :=
  if c.toNat < 0x10000 then [.ofNat c.toNat]
  else
    [.ofNat (0xD800 + (c.toNat - 0x10000) / 0x400), .ofNat (0xDC00 + (c.toNat - 0x10000) % 0x400)]

/-- The text of some units; `none` where a surrogate has no partner. -/
def fromUtf16 : List UInt16 → Option (List Char)
  | [] => some []
  | unit :: rest =>
    if unit.toNat < 0xD800 ∨ 0xDFFF < unit.toNat then
      (fromUtf16 rest).map (Char.ofNat unit.toNat :: ·)
    else
      match rest with
      | [] => none
      | low :: rest =>
        if unit.toNat < 0xDC00 ∧ 0xDC00 ≤ low.toNat ∧ low.toNat ≤ 0xDFFF then
          (fromUtf16 rest).map
            (Char.ofNat (0x10000 + (unit.toNat - 0xD800) * 0x400 + (low.toNat - 0xDC00)) :: ·)
        else none

/-- A unit as two bytes, the high one first. -/
def bigEndian (unit : UInt16) : List UInt8 :=
  [.ofNat (unit.toNat / 256), .ofNat (unit.toNat % 256)]

/-- The units of some bytes, a lone last byte left out. -/
def units : List UInt8 → List UInt16
  | high :: low :: rest => .ofNat (high.toNat * 256 + low.toNat) :: units rest
  | _ => []

section

variable {text : List Char} {values rest : List UInt16} {unit low : UInt16} {c : Char} {n : Nat}

theorem ofNat_eq_char (h : n = c.toNat) : Char.ofNat n = c := by
  rw [h, Char.ofNat_toNat]

/-- A character is no surrogate, and in the planes of Unicode. -/
theorem char_bounds (c : Char) :
    (c.toNat < 0xD800 ∨ 0xDFFF < c.toNat) ∧ c.toNat < 0x110000 := by
  rcases c.valid with h | h
  · have hsmall : c.toNat < 0xD800 := h
    exact ⟨.inl hsmall, Nat.lt_trans hsmall (by decide)⟩
  · exact ⟨.inr h.1, h.2⟩

/-- A number that is no surrogate and in the planes of Unicode is a character's. -/
theorem toNat_char (hplain : n < 0xD800 ∨ 0xDFFF < n) (hmax : n < 0x110000) :
    (Char.ofNat n).toNat = n := by
  have hvalid : n.isValidChar := hplain.imp_right fun h => ⟨h, hmax⟩
  rw [Char.ofNat, dif_pos hvalid]
  rfl

theorem fromUtf16_plain (h : unit.toNat < 0xD800 ∨ 0xDFFF < unit.toNat) :
    fromUtf16 (unit :: rest) = (fromUtf16 rest).map (Char.ofNat unit.toNat :: ·) := by
  rw [fromUtf16.eq_def]
  exact if_pos h

theorem fromUtf16_pair (hhigh : 0xD800 ≤ unit.toNat ∧ unit.toNat < 0xDC00)
    (hlow : 0xDC00 ≤ low.toNat ∧ low.toNat ≤ 0xDFFF) :
    fromUtf16 (unit :: low :: rest) = (fromUtf16 rest).map
      (Char.ofNat (0x10000 + (unit.toNat - 0xD800) * 0x400 + (low.toNat - 0xDC00)) :: ·) := by
  rw [fromUtf16.eq_def]
  dsimp only
  rw [if_neg (by omega), if_pos ⟨hhigh.2, hlow⟩]

/-- **A text comes back from its units.** -/
theorem fromUtf16_utf16 (text : List Char) : fromUtf16 (text.flatMap utf16) = some text := by
  induction text with
  | nil => rfl
  | cons c text ih =>
    obtain ⟨hplain, hmax⟩ := char_bounds c
    rw [List.flatMap_cons, utf16]
    split
    · rename_i hone
      have hunit : (UInt16.ofNat c.toNat).toNat = c.toNat := by
        rw [UInt16.toNat_ofNat']
        omega
      rw [List.singleton_append, fromUtf16_plain (by rwa [hunit]), hunit, ih, Char.ofNat_toNat]
      rfl
    · rename_i hpair
      have hhigh : (UInt16.ofNat (0xD800 + (c.toNat - 0x10000) / 0x400)).toNat =
          0xD800 + (c.toNat - 0x10000) / 0x400 := by
        rw [UInt16.toNat_ofNat']
        omega
      have hlow : (UInt16.ofNat (0xDC00 + (c.toNat - 0x10000) % 0x400)).toNat =
          0xDC00 + (c.toNat - 0x10000) % 0x400 := by
        rw [UInt16.toNat_ofNat']
        omega
      rw [List.cons_append, List.singleton_append,
        fromUtf16_pair (by rw [hhigh]; omega) (by rw [hlow]; omega), hhigh, hlow, ih,
        Option.map_some, ofNat_eq_char (c := c) (by omega)]

/-- **Units that are a text are the units of that text.** -/
theorem utf16_fromUtf16 (h : fromUtf16 values = some text) : text.flatMap utf16 = values := by
  induction values using fromUtf16.induct generalizing text with
  | case1 =>
    obtain rfl := Option.some.inj h
    rfl
  | case2 unit rest hplain ih =>
    rw [fromUtf16_plain hplain, Option.map_eq_some_iff] at h
    obtain ⟨tail, htail, rfl⟩ := h
    have hlt := unit.toNat_lt
    have hnat := toNat_char hplain (by omega)
    rw [List.flatMap_cons, ih htail, utf16, hnat, if_pos hlt, UInt16.ofNat_toNat]
    rfl
  | case3 unit hsurrogate =>
    rw [fromUtf16.eq_def] at h
    dsimp only at h
    rw [if_neg hsurrogate] at h
    cases h
  | case4 unit hsurrogate low rest hpair ih =>
    have hhigh : 0xD800 ≤ unit.toNat ∧ unit.toNat < 0xDC00 := by omega
    rw [fromUtf16_pair hhigh hpair.2, Option.map_eq_some_iff] at h
    obtain ⟨tail, htail, rfl⟩ := h
    have hnat := toNat_char
      (n := 0x10000 + (unit.toNat - 0xD800) * 0x400 + (low.toNat - 0xDC00)) (by omega) (by omega)
    have hfirst : UInt16.ofNat (0xD800 + (0x10000 + (unit.toNat - 0xD800) * 0x400 +
        (low.toNat - 0xDC00) - 0x10000) / 0x400) = unit := by
      rw [← UInt16.toNat_inj, UInt16.toNat_ofNat']
      omega
    have hsecond : UInt16.ofNat (0xDC00 + (0x10000 + (unit.toNat - 0xD800) * 0x400 +
        (low.toNat - 0xDC00) - 0x10000) % 0x400) = low := by
      rw [← UInt16.toNat_inj, UInt16.toNat_ofNat']
      omega
    rw [List.flatMap_cons, ih htail, utf16, hnat, if_neg (by omega), hfirst, hsecond]
    rfl
  | case5 unit hsurrogate low rest hlone =>
    rw [fromUtf16.eq_def] at h
    dsimp only at h
    rw [if_neg hsurrogate, if_neg hlone] at h
    cases h

/-! ## Bytes -/

theorem length_bigEndian (values : List UInt16) :
    (values.flatMap bigEndian).length = 2 * values.length := by
  induction values with
  | nil => rfl
  | cons unit values ih =>
    rw [List.flatMap_cons, List.length_append, ih, List.length_cons]
    exact Nat.add_comm 2 _

/-- Units come back from their bytes. -/
theorem units_bigEndian (values : List UInt16) : units (values.flatMap bigEndian) = values := by
  induction values with
  | nil => rfl
  | cons unit values ih =>
    have hlt := unit.toNat_lt
    rw [List.flatMap_cons, bigEndian, List.cons_append, List.singleton_append, units, ih]
    refine congrArg (· :: values) ?_
    rw [← UInt16.toNat_inj, UInt16.toNat_ofNat', UInt8.toNat_ofNat', UInt8.toNat_ofNat']
    omega

/-- An even number of bytes are those of their units. -/
theorem bigEndian_units : ∀ {bytes : List UInt8}, bytes.length % 2 = 0 →
    (units bytes).flatMap bigEndian = bytes
  | [], _ => rfl
  | [_], h => by cases h
  | high :: low :: rest, h => by
    have hhigh := high.toNat_lt
    have hlow := low.toNat_lt
    have heven : rest.length % 2 = 0 := by
      rw [List.length_cons, List.length_cons] at h
      omega
    rw [units, List.flatMap_cons, bigEndian_units heven, bigEndian, List.cons_append,
      List.singleton_append, UInt16.toNat_ofNat']
    congr 2
    · rw [← UInt8.toNat_inj, UInt8.toNat_ofNat']
      omega
    · rw [← UInt8.toNat_inj, UInt8.toNat_ofNat']
      omega

end

end Huliho
