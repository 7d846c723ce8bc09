import Huliho.Lib.Frames
import Huliho.Uploads.Files

/-!
# The sealed blocks of an upload

`blocks.rs`: each block of an upload lies in its file behind its sealed length in four octets. A
`Reader` opens them one at a time in order, and `read` opens them all. A `record` is a frame of the
library (**`record_some`**), so what a step of the reader found is written out by **`next_some`**.
-/

namespace Huliho.Uploads

/-- The octets that state a block's sealed length. -/
def lengthBytes : Nat := 4

/-- What a host's seal may add to a block's plaintext. -/
def maxSealOverhead : Nat := 4096

/-- A quotient rounded up. -/
def divCeil (a b : Nat) : Nat := if a % b = 0 then a / b else a / b + 1

/-- How many blocks an upload of `size` octets has: one at least, so an empty upload still has a block
that closes it. -/
def blockCount (size : Nat) : Nat := min (max (divCeil size uploadBlockBytes) 1) maxU32

/-- The plaintext of block `index` of an upload of `size` octets. -/
def blockLen (size index : Nat) : Nat := min (size - index * uploadBlockBytes) uploadBlockBytes

/-- The file with one sealed block behind its length. -/
def append (file sealed : Bytes) : Except UploadError Bytes :=
  if sealed.length ≤ maxU32 then .ok (file ++ bytesOf lengthBytes sealed.length ++ sealed)
  else .error .io

/-- The octets one block takes in the file, its length included. -/
def recordBytes (sealed : Bytes) : Nat := min (lengthBytes + sealed.length) maxU64

/-- One sealed block of the file and what follows it; `none` where the file ends before its length. A
length no block of the store reaches is broken. -/
def record (file : Bytes) : Except Broken (Option (Bytes × Bytes)) :=
  if file = [] then .ok none
  else if file.length < lengthBytes then .error .broken
  else
    let length := numberOf (file.take lengthBytes)
    if uploadBlockBytes + maxSealOverhead < length then .error .broken
    else
      let rest := file.drop lengthBytes
      if rest.length < length then .error .broken
      else .ok (some (rest.take length, rest.drop length))

/-- One upload's blocks as they open, in order. -/
structure Reader where
  file : Bytes
  size : Nat
  index : Nat
  reach : index ≤ blockCount size

/-- The reader of an upload before its first block. -/
def Reader.of (file : Bytes) (size : Nat) : Reader := ⟨file, size, 0, Nat.zero_le _⟩

section
variable (sealer : Sealer) (key : AccountKey) (id : UploadId)

/-- The next block's plaintext; `none` once the last block opened and the file ended right after
it. -/
def Reader.next (r : Reader) : Except Broken (Option (Bytes × Reader)) :=
  if h : r.index = blockCount r.size then .ok none
  else match record r.file with
    | .error e => .error e
    | .ok none => .error .broken
    | .ok (some (sealed, rest)) =>
      let last := decide (r.index + 1 = blockCount r.size)
      match sealer.openBlock key ⟨id, r.index, last⟩ sealed with
      | none => .error .broken
      | some plain =>
        if plain.length ≠ blockLen r.size r.index then .error .broken
        else match last, record rest with
          | true, .error e => .error e
          | true, .ok (some _) => .error .broken
          | _, _ =>
            .ok (some (plain, ⟨rest, r.size, r.index + 1, Nat.lt_of_le_of_ne r.reach h⟩))

end

/-! ## What a record is -/

section
variable {file sealed rest : Bytes}

theorem record_none : record file = .ok none ↔ file = [] := by
  unfold record
  constructor
  · intro h
    by_contra hne
    rw [if_neg hne] at h
    dsimp only at h
    split_ifs at h <;> cases h
  · intro h
    rw [if_pos h]

/-- **A record is a frame no longer than a sealed block.** -/
theorem record_some : record file = .ok (some (sealed, rest)) ↔
    file = framed lengthBytes sealed ++ rest ∧
      sealed.length ≤ uploadBlockBytes + maxSealOverhead := by
  constructor
  · intro h
    unfold record at h
    split_ifs at h with hnil hshort
    · cases h
    dsimp only at h
    split_ifs at h with hlong hrest
    simp only [Except.ok.injEq, Option.some.injEq, Prod.mk.injEq] at h
    obtain ⟨rfl, rfl⟩ := h
    have hbody := Nat.not_lt.1 hrest
    refine ⟨eq_framed (Nat.not_lt.1 hshort) hbody, ?_⟩
    rw [List.length_take_of_le hbody]
    exact Nat.not_lt.1 hlong
  · rintro ⟨rfl, hlong⟩
    have hbound : uploadBlockBytes + maxSealOverhead < 256 ^ lengthBytes := by decide
    have hlength : (framed lengthBytes sealed ++ rest).length =
        lengthBytes + sealed.length + rest.length := by
      rw [List.length_append, length_framed]
    have hfour : 0 < lengthBytes := by decide
    unfold record
    rw [if_neg fun hnil => by rw [hnil, List.length_nil] at hlength; omega, if_neg (by omega)]
    dsimp only
    rw [take_framed (Nat.lt_of_le_of_lt hlong hbound), drop_framed, if_neg (Nat.not_lt.2 hlong),
      if_neg (by rw [List.length_append]; omega), List.take_left' rfl, List.drop_left' rfl]

end

/-! ## What a step of the reader finds -/

section
variable {sealer : Sealer} {key : AccountKey} {id : UploadId} {r s : Reader} {plain : Bytes}

theorem Reader.next_none : r.next sealer key id = .ok none ↔ r.index = blockCount r.size := by
  unfold Reader.next
  constructor
  · intro h
    by_contra hindex
    rw [dif_neg hindex] at h
    dsimp only at h
    split at h
    · cases h
    · cases h
    · split at h
      · cases h
      · split_ifs at h
        split at h <;> cases h
  · intro h
    rw [dif_pos h]

/-- **A step opens the record at its place**, of the length that place has, and behind the last there
is nothing. -/
theorem Reader.next_some : r.next sealer key id = .ok (some (plain, s)) ↔
    ∃ sealed, r.index < blockCount r.size ∧ r.file = framed lengthBytes sealed ++ s.file ∧
      sealed.length ≤ uploadBlockBytes + maxSealOverhead ∧
      sealer.openBlock key ⟨id, r.index, decide (r.index + 1 = blockCount r.size)⟩ sealed =
        some plain ∧
      plain.length = blockLen r.size r.index ∧
      (r.index + 1 = blockCount r.size → s.file = []) ∧ s.size = r.size ∧
      s.index = r.index + 1 := by
  unfold Reader.next
  constructor
  · intro h
    split_ifs at h with hindex
    · cases h
    dsimp only at h
    split at h
    · cases h
    · cases h
    rename_i sealed rest hrecord
    obtain ⟨hfile, hlength⟩ := record_some.1 hrecord
    split at h
    · cases h
    rename_i hopen
    split_ifs at h with hplain
    split at h
    · cases h
    · cases h
    rename_i hno hyes
    simp only [Except.ok.injEq, Option.some.injEq, Prod.mk.injEq] at h
    obtain ⟨rfl, rfl⟩ := h
    refine ⟨sealed, Nat.lt_of_le_of_ne r.reach hindex, hfile, hlength, hopen,
      Decidable.not_not.1 hplain, fun hlast => ?_, rfl, rfl⟩
    have hclose := decide_eq_true hlast
    match hrest : record rest with
    | .error e => exact absurd hrest (hno e hclose)
    | .ok (some more) => exact absurd hrest (hyes more hclose)
    | .ok none => exact record_none.1 hrest
  · rintro ⟨sealed, hindex, hfile, hlength, hopen, hplain, hlast, hsize, hnext⟩
    rw [dif_neg (Nat.ne_of_lt hindex), record_some.2 ⟨hfile, hlength⟩]
    dsimp only
    rw [hopen]
    dsimp only
    rw [if_neg (not_not.2 hplain)]
    obtain ⟨file, size, index, reach⟩ := s
    obtain rfl : size = r.size := hsize
    obtain rfl : index = r.index + 1 := hnext
    split
    · rename_i e hclose hrest
      rw [record_none.2 (hlast (of_decide_eq_true hclose))] at hrest
      cases hrest
    · rename_i more hclose hrest
      rw [record_none.2 (hlast (of_decide_eq_true hclose))] at hrest
      cases hrest
    · rfl

end

section
variable (sealer : Sealer) (key : AccountKey) (id : UploadId)

/-- Every block from here on, put together. -/
def Reader.read (r : Reader) : Except Broken Bytes :=
  match h : r.next sealer key id with
  | .error e => .error e
  | .ok none => .ok []
  | .ok (some (plain, s)) =>
    match s.read with
    | .error e => .error e
    | .ok bytes => .ok (plain ++ bytes)
termination_by blockCount r.size - r.index
decreasing_by
  obtain ⟨_, hindex, _, _, _, _, _, hsize, hnext⟩ := Reader.next_some.1 h
  rw [hsize, hnext]
  omega

end

section
variable {sealer : Sealer} {key : AccountKey} {id : UploadId} {r s : Reader} {plain bytes : Bytes}

/-- Behind the last block there is nothing more to read. -/
theorem Reader.read_end (h : r.index = blockCount r.size) : r.read sealer key id = .ok [] := by
  have hnone : r.next sealer key id = .ok none := Reader.next_none.2 h
  rw [Reader.read]
  split
  · rename_i hnext
    rw [hnone] at hnext
    cases hnext
  · rfl
  · rename_i hnext
    rw [hnone] at hnext
    cases hnext

/-- A read is a block and the read of the rest. -/
theorem Reader.read_cons (h : r.next sealer key id = .ok (some (plain, s)))
    (hrest : s.read sealer key id = .ok bytes) : r.read sealer key id = .ok (plain ++ bytes) := by
  rw [Reader.read]
  split
  · rename_i hnext
    rw [h] at hnext
    cases hnext
  · rename_i hnext
    rw [h] at hnext
    cases hnext
  · rename_i hnext
    rw [h] at hnext
    cases hnext
    rw [hrest]

/-- A read that comes to an end found a block and read the rest, unless it stood there. -/
theorem Reader.read_ok (h : r.read sealer key id = .ok bytes) (hlt : r.index < blockCount r.size) :
    ∃ plain s rest, r.next sealer key id = .ok (some (plain, s)) ∧
      s.read sealer key id = .ok rest ∧ bytes = plain ++ rest := by
  rw [Reader.read] at h
  split at h
  · cases h
  · rename_i hnext
    exact absurd (Reader.next_none.1 hnext) (Nat.ne_of_lt hlt)
  · rename_i plain s hnext
    split at h
    · cases h
    · rename_i rest hrest
      cases h
      exact ⟨plain, s, rest, hnext, hrest, rfl⟩

end

end Huliho.Uploads
