import Huliho.Lib.Cutting
import Huliho.Uploads.Blocks

/-!
# An upload on its way

`writing.rs`: the bytes of an upload counted as they come, cut into blocks once the next one starts,
each sealed and appended to the part file. `upload` is a whole upload, from its first piece to its
sidecar. Where the pieces end plays no part: the blocks are those of the bytes put together
(**`upload_blocks`**).

What the store and the disk may fail with is a parameter; nothing is assumed of it.
-/

namespace Huliho.Uploads

/-- A call of the store that may fail. -/
inductive Call
  /-- Room made for a block, then the block appended. -/
  | append (index : Nat)
  /-- The file renamed into place and its sidecar written. -/
  | complete
deriving DecidableEq, Repr

/-- An upload on its way into the store. -/
structure Writing where
  /-- What the part file holds. -/
  part : Bytes
  /-- The bytes of the block still filling. -/
  pending : Bytes
  index : Nat
  size : Nat
  /-- What was sealed for the upload so far: history only, nothing reads it. -/
  made : List Sealing
deriving DecidableEq, Repr

/-- The upload as the store made room for it. -/
def Writing.new : Writing := ⟨[], [], 0, 0, []⟩

/-- An upload in its place: its file, the size its sidecar states and what was sealed for it. -/
structure Stored where
  file : Bytes
  size : Nat
  made : List Sealing
deriving DecidableEq, Repr

section
variable (bounds : Bounds) (sealer : Sealer) (fails : Call → Option UploadError) (key : AccountKey)
  (id : UploadId)

/-- One block sealed, then appended once there is room. -/
def Writing.write (w : Writing) (plain : Bytes) (last : Bool) : Except UploadError Writing :=
  match sealer.sealBlock key ⟨id, w.index, last⟩ plain with
  | none => .error .sealing
  | some sealed =>
    match fails (.append w.index) with
    | some e => .error e
    | none =>
      match append w.part sealed with
      | .error e => .error e
      | .ok part =>
        if w.index < maxU32 then
          .ok { w with
            part
            index := w.index + 1
            made := w.made ++ [⟨⟨id, w.index, last⟩, plain, sealed⟩] }
        else .error .tooLarge

/-- The full blocks of what is pending written, as long as something follows them. -/
def Writing.drain (w : Writing) (pending : Bytes) : Except UploadError Writing :=
  if uploadBlockBytes < pending.length then
    match w.write sealer fails key id (pending.take uploadBlockBytes) false with
    | .error e => .error e
    | .ok w => w.drain (pending.drop uploadBlockBytes)
  else .ok { w with pending }
termination_by pending.length
decreasing_by
  rw [List.length_drop]
  unfold uploadBlockBytes at *
  omega

/-- The next bytes of the body. -/
def Writing.pushed (w : Writing) (bytes : Bytes) : Except UploadError Writing :=
  let size := min (w.size + bytes.length) maxU64
  if bounds.bytes < size then .error .tooLarge
  else { w with size }.drain sealer fails key id (w.pending ++ bytes)

/-- The last block written and the upload in its place. -/
def Writing.finished (w : Writing) : Except UploadError Stored :=
  match w.write sealer fails key id w.pending true with
  | .error e => .error e
  | .ok w =>
    match fails .complete with
    | some e => .error e
    | none => .ok ⟨w.part, w.size, w.made⟩

/-- Every piece pushed in order; the first that fails ends the upload. -/
def Writing.pushes (w : Writing) : List Bytes → Except UploadError Writing
  | [] => .ok w
  | bytes :: pieces =>
    match w.pushed bounds sealer fails key id bytes with
    | .error e => .error e
    | .ok w => w.pushes pieces

/-- An upload from its first piece to its last. -/
def upload (pieces : List Bytes) : Except UploadError Stored :=
  match Writing.new.pushes bounds sealer fails key id pieces with
  | .error e => .error e
  | .ok w => w.finished sealer fails key id

end

/-! ## What a write leaves -/

/-- The records of some sealed blocks, one behind the other. -/
def recordsOf (made : List Sealing) : Bytes := made.flatMap fun s => framed lengthBytes s.out

@[simp] theorem recordsOf_nil : recordsOf [] = [] := rfl

@[simp] theorem recordsOf_cons (s : Sealing) (made : List Sealing) :
    recordsOf (s :: made) = framed lengthBytes s.out ++ recordsOf made := rfl

theorem recordsOf_concat (made : List Sealing) (s : Sealing) :
    recordsOf (made ++ [s]) = recordsOf made ++ framed lengthBytes s.out := by
  simp only [recordsOf, List.flatMap_append, List.flatMap_cons, List.flatMap_nil, List.append_nil]

section
variable {bounds : Bounds} {sealer : Sealer} {fails : Call → Option UploadError} {key : AccountKey}
  {id : UploadId} {w w' : Writing} {plain total : Bytes} {last : Bool}

/-- **A write seals one block at its place and appends its record.** -/
theorem Writing.write_ok : w.write sealer fails key id plain last = .ok w' ↔
    ∃ out, sealer.sealBlock key ⟨id, w.index, last⟩ plain = some out ∧
      fails (.append w.index) = none ∧ out.length ≤ maxU32 ∧ w.index < maxU32 ∧
      w' = { w with
        part := w.part ++ framed lengthBytes out
        index := w.index + 1
        made := w.made ++ [⟨⟨id, w.index, last⟩, plain, out⟩] } := by
  unfold Writing.write append framed
  constructor
  · intro h
    split at h
    · cases h
    rename_i out hseal
    split at h
    · cases h
    rename_i hfails
    split_ifs at h with hlength hindex
    · cases h
      exact ⟨out, hseal, hfails, hlength, hindex, by rw [List.append_assoc]⟩
  · rintro ⟨out, hseal, hfails, hlength, hindex, rfl⟩
    rw [hseal]
    dsimp only
    rw [hfails]
    dsimp only
    rw [if_pos hlength]
    dsimp only
    rw [if_pos hindex, List.append_assoc]

/-- What the part file and the history hold of the bytes so far, with `pending` not yet written: the
blocks cut off so far are cut off whatever follows. -/
structure Writing.Holds (sealer : Sealer) (key : AccountKey) (id : UploadId) (w : Writing)
    (pending total : Bytes) : Prop where
  cut : ∀ more, inBlocks uploadBlockBytes (total ++ more) =
    w.made.map Sealing.plain ++ inBlocks uploadBlockBytes (pending ++ more)
  part : w.part = recordsOf w.made
  index : w.index = w.made.length
  places : ∀ i (s : Sealing), w.made[i]? = some s → s.block = ⟨id, i, false⟩
  seals : ∀ s ∈ w.made, sealer.sealBlock key s.block s.plain = some s.out

theorem Writing.holds_new : Writing.new.Holds sealer key id [] [] where
  cut _ := rfl
  part := rfl
  index := rfl
  places i s h := by cases h
  seals s h := by cases h

theorem Writing.Holds.append {pending : Bytes} (h : w.Holds sealer key id pending total)
    (bytes : Bytes) : w.Holds sealer key id (pending ++ bytes) (total ++ bytes) where
  cut more := by rw [List.append_assoc, List.append_assoc, h.cut]
  part := h.part
  index := h.index
  places := h.places
  seals := h.seals

/-- The history after one more block holds what it held, and the block at its place. -/
theorem getElem?_concat {made : List Sealing} {s t : Sealing} {i : Nat}
    (h : (made ++ [t])[i]? = some s) : made[i]? = some s ∨ i = made.length ∧ s = t := by
  rcases Nat.lt_trichotomy i made.length with hlt | rfl | hlt
  · rw [List.getElem?_append_left hlt] at h
    exact .inl h
  · rw [List.getElem?_concat_length, Option.some.injEq] at h
    exact .inr ⟨rfl, h.symm⟩
  · rw [List.getElem?_eq_none (by rw [List.length_append, List.length_singleton]; omega)] at h
    cases h

/-- A full block is written as soon as something follows it. -/
theorem Writing.Holds.write {block rest : Bytes} (h : w.Holds sealer key id (block ++ rest) total)
    (hblock : block.length = uploadBlockBytes) (hrest : rest ≠ [])
    (hwrite : w.write sealer fails key id block false = .ok w') :
    w'.Holds sealer key id rest total := by
  obtain ⟨out, hseal, -, -, -, rfl⟩ := Writing.write_ok.1 hwrite
  refine ⟨fun more => ?_, ?_, ?_, fun i s hs => ?_, fun s hs => ?_⟩
  · have hmore : rest ++ more ≠ [] := List.append_ne_nil_of_left_ne_nil hrest more
    rw [h.cut, List.append_assoc, inBlocks_append (by decide) hblock hmore, List.map_append,
      List.append_assoc]
    rfl
  · rw [recordsOf_concat, ← h.part]
  · rw [List.length_append, ← h.index]
    rfl
  · rcases getElem?_concat hs with hs | ⟨rfl, rfl⟩
    · exact h.places i s hs
    · rw [← h.index]
  · rcases List.mem_append.1 hs with hs | hs
    · exact h.seals s hs
    · rwa [List.mem_singleton.1 hs]

/-- What `drain` leaves pending fits in one block; the size stays. -/
theorem Writing.drain_ok {pending : Bytes} (h : w.Holds sealer key id pending total)
    (hdrain : w.drain sealer fails key id pending = .ok w') :
    w'.Holds sealer key id w'.pending total ∧ w'.pending.length ≤ uploadBlockBytes ∧
      w'.size = w.size := by
  induction hlen : pending.length using Nat.strong_induction_on generalizing w pending with
  | _ n ih =>
    rw [Writing.drain] at hdrain
    split_ifs at hdrain with hlong
    · split at hdrain
      · cases hdrain
      rename_i w₁ hwrite
      have hfull : (pending.take uploadBlockBytes).length = uploadBlockBytes :=
        List.length_take_of_le (Nat.le_of_lt hlong)
      have hrest : pending.drop uploadBlockBytes ≠ [] :=
        List.ne_nil_of_length_pos (by rw [List.length_drop]; omega)
      rw [← List.take_append_drop uploadBlockBytes pending] at h
      have hshort : (pending.drop uploadBlockBytes).length < n := by
        rw [List.length_drop]
        unfold uploadBlockBytes at *
        omega
      obtain ⟨hholds, hpending, hsize⟩ := ih _ hshort (h.write hfull hrest hwrite) hdrain rfl
      obtain ⟨out, -, -, -, -, rfl⟩ := Writing.write_ok.1 hwrite
      exact ⟨hholds, hpending, hsize⟩
    · cases hdrain
      exact ⟨⟨h.cut, h.part, h.index, h.places, h.seals⟩, Nat.not_lt.1 hlong, rfl⟩

/-! ## What an upload leaves -/

/-- Some bytes in their place: their blocks, each sealed at its place, and their length beside
them. -/
structure Stored.Keeps (sealer : Sealer) (key : AccountKey) (id : UploadId) (stored : Stored)
    (total : Bytes) : Prop where
  blocks : stored.made.map Sealing.plain = inBlocks uploadBlockBytes total
  file : stored.file = recordsOf stored.made
  places : ∀ i (s : Sealing), stored.made[i]? = some s →
    s.block = ⟨id, i, decide (i + 1 = stored.made.length)⟩
  seals : ∀ s ∈ stored.made, sealer.sealBlock key s.block s.plain = some s.out
  size : stored.size = total.length

/-- An upload on its way that took some bytes. -/
structure Writing.Took (bounds : Bounds) (sealer : Sealer) (key : AccountKey) (id : UploadId)
    (w : Writing) (total : Bytes) : Prop where
  holds : w.Holds sealer key id w.pending total
  short : w.pending.length ≤ uploadBlockBytes
  size : w.size = total.length
  within : total.length ≤ bounds.bytes

theorem Bounds.bytes_lt (bounds : Bounds) : bounds.bytes < maxU64 :=
  Nat.lt_trans bounds.counted (by decide)

theorem Writing.took_new : Writing.new.Took bounds sealer key id [] :=
  ⟨Writing.holds_new, Nat.zero_le _, rfl, Nat.zero_le _⟩

theorem Writing.pushed_ok {bytes : Bytes} (h : w.Took bounds sealer key id total)
    (hpushed : w.pushed bounds sealer fails key id bytes = .ok w') :
    w'.Took bounds sealer key id (total ++ bytes) := by
  unfold Writing.pushed at hpushed
  dsimp only at hpushed
  split_ifs at hpushed with hsize
  have hwhole : w.size + bytes.length ≤ bounds.bytes ∧
      min (w.size + bytes.length) maxU64 = w.size + bytes.length := by
    have hword := bounds.bytes_lt
    omega
  have hstart : ({ w with size := min (w.size + bytes.length) maxU64 } : Writing).Holds
      sealer key id (w.pending ++ bytes) (total ++ bytes) := by
    obtain ⟨hcut, hpart, hindex, hplaces, hseals⟩ := h.holds.append bytes
    exact ⟨hcut, hpart, hindex, hplaces, hseals⟩
  obtain ⟨hholds, hshort, hkept⟩ := Writing.drain_ok hstart hpushed
  have hlength : (total ++ bytes).length = w.size + bytes.length := by
    rw [List.length_append, h.size]
  refine ⟨hholds, hshort, ?_, ?_⟩
  · rw [hkept, hwhole.2, hlength]
  · rw [hlength]
    exact hwhole.1

theorem Writing.pushes_ok {pieces : List Bytes} (h : w.Took bounds sealer key id total)
    (hpushes : w.pushes bounds sealer fails key id pieces = .ok w') :
    w'.Took bounds sealer key id (total ++ pieces.flatten) := by
  induction pieces generalizing w total with
  | nil =>
    cases hpushes
    rwa [List.flatten_nil, List.append_nil]
  | cons bytes pieces ih =>
    rw [Writing.pushes] at hpushes
    split at hpushes
    · cases hpushes
    · rename_i w₁ hpushed
      rw [List.flatten_cons, ← List.append_assoc]
      exact ih (Writing.pushed_ok h hpushed) hpushes

/-- **An upload keeps its bytes, wherever its pieces end.** -/
theorem upload_blocks {pieces : List Bytes} {stored : Stored}
    (h : upload bounds sealer fails key id pieces = .ok stored) :
    stored.Keeps sealer key id pieces.flatten ∧ pieces.flatten.length ≤ bounds.bytes := by
  unfold upload Writing.finished at h
  split at h
  · cases h
  rename_i w hpushes
  have htook : w.Took bounds sealer key id pieces.flatten :=
    Writing.pushes_ok Writing.took_new hpushes
  split at h
  · cases h
  rename_i w₁ hwrite
  split at h
  · cases h
  cases h
  obtain ⟨out, hseal, -, -, -, rfl⟩ := Writing.write_ok.1 hwrite
  have hholds := htook.holds
  refine ⟨⟨?_, ?_, fun i s hs => ?_, fun s hs => ?_, htook.size⟩, htook.within⟩
  · have hcut := hholds.cut []
    rw [List.append_nil, List.append_nil, inBlocks_of_le htook.short] at hcut
    rw [hcut, List.map_append]
    rfl
  · rw [recordsOf_concat, ← hholds.part]
  · have hlength : (w.made ++ [(⟨⟨id, w.index, true⟩, w.pending, out⟩ : Sealing)]).length =
        w.made.length + 1 := by rw [List.length_append, List.length_singleton]
    rcases getElem?_concat hs with hs | ⟨rfl, rfl⟩
    · have hlt : i < w.made.length := (List.getElem?_eq_some_iff.1 hs).1
      rw [hholds.places i s hs]
      dsimp only
      rw [hlength, decide_eq_false (by omega)]
    · dsimp only
      rw [hlength, decide_eq_true rfl, hholds.index]
  · rcases List.mem_append.1 hs with hs | hs
    · exact hholds.seals s hs
    · rwa [List.mem_singleton.1 hs]

end

end Huliho.Uploads
