import Huliho.Uploads.Writing

/-!
# Reading an upload back

The reader finds the blocks of an upload again from the size beside it: `blockCount` and `blockLen`
say what the writer cut (**`Stored.Keeps.count`**, **`Stored.Keeps.length`**). So what was stored
reads back (**`Stored.Keeps.read`**), and whatever reads back is what was stored
(**`Stored.Keeps.only`**): every block of it opened, so it is the block sealed at that place, and the
last one closes the file.

Of the host's cipher this takes that under the upload's id it opens exactly what it sealed there,
`Sealer.Opens`, and that a sealed block fits in a record. An upload within the bounds comes through
where the cipher and the store never fail (**`upload_total`**), and **`read_back`** is the whole story.
-/

namespace Huliho.Uploads

/-- The host opens a block of the upload exactly under the account and the place it was sealed
with. -/
def Sealer.Opens (sealer : Sealer) (key : AccountKey) (id : UploadId) (made : List Sealing) :
    Prop :=
  ∀ block plain out, block.upload = id →
    (sealer.openBlock key block out = some plain ↔ ⟨block, plain, out⟩ ∈ made)

/-- A sealed block fits in a record. -/
def Sealer.Fits (sealer : Sealer) (key : AccountKey) : Prop :=
  ∀ block plain out, sealer.sealBlock key block plain = some out →
    out.length ≤ plain.length + maxSealOverhead

section
variable {bounds : Bounds} {sealer : Sealer} {fails : Call → Option UploadError} {key : AccountKey}
  {id : UploadId} {stored : Stored} {total : Bytes}

/-! ## An upload comes through -/

/-- Where neither the host's cipher nor the store fails. -/
structure Smooth (sealer : Sealer) (fails : Call → Option UploadError) (key : AccountKey) :
    Prop where
  seals : ∀ block plain, (sealer.sealBlock key block plain).isSome
  stores : ∀ call, fails call = none

/-- There is a place left for the block that is pending. -/
theorem Writing.Holds.index_lt {w : Writing} {pending : Bytes}
    (h : w.Holds sealer key id pending total) (hwithin : total.length ≤ bounds.bytes) :
    w.index < maxU32 := by
  have hcut := congrArg List.length (h.cut [])
  have hone := List.length_pos_of_ne_nil (inBlocks_ne_nil (n := uploadBlockBytes) (l := pending))
  have hcounted := bounds.counted
  rw [List.append_nil, List.append_nil, List.length_append, List.length_map, ← h.index,
    length_inBlocks (by decide)] at hcut
  unfold uploadBlockBytes maxU32 at *
  omega

theorem Writing.write_total {w : Writing} {pending plain : Bytes} {last : Bool}
    (hsmooth : Smooth sealer fails key) (hfits : sealer.Fits key)
    (h : w.Holds sealer key id pending total) (hwithin : total.length ≤ bounds.bytes)
    (hplain : plain.length ≤ uploadBlockBytes) :
    ∃ w', w.write sealer fails key id plain last = .ok w' := by
  obtain ⟨out, hout⟩ := Option.isSome_iff_exists.1 (hsmooth.seals ⟨id, w.index, last⟩ plain)
  have hlength : out.length ≤ maxU32 := by
    have hsealed := hfits _ _ _ hout
    unfold uploadBlockBytes maxSealOverhead maxU32 at *
    omega
  exact ⟨_, Writing.write_ok.2
    ⟨out, hout, hsmooth.stores _, hlength, h.index_lt hwithin, rfl⟩⟩

theorem Writing.drain_total {w : Writing} {pending : Bytes} (hsmooth : Smooth sealer fails key)
    (hfits : sealer.Fits key) (h : w.Holds sealer key id pending total)
    (hwithin : total.length ≤ bounds.bytes) :
    ∃ w', w.drain sealer fails key id pending = .ok w' := by
  induction hlen : pending.length using Nat.strong_induction_on generalizing w pending with
  | _ n ih =>
    rw [Writing.drain]
    split_ifs with hlong
    · have hfull : (pending.take uploadBlockBytes).length = uploadBlockBytes :=
        List.length_take_of_le (Nat.le_of_lt hlong)
      have hrest : pending.drop uploadBlockBytes ≠ [] :=
        List.ne_nil_of_length_pos (by rw [List.length_drop]; omega)
      rw [← List.take_append_drop uploadBlockBytes pending] at h
      obtain ⟨w₁, hwrite⟩ : ∃ w₁, w.write sealer fails key id _ false = .ok w₁ :=
        Writing.write_total hsmooth hfits h hwithin (Nat.le_of_eq hfull)
      rw [hwrite]
      refine ih _ ?_ (h.write hfull hrest hwrite) rfl
      rw [List.length_drop]
      unfold uploadBlockBytes at *
      omega
    · exact ⟨_, rfl⟩

theorem Writing.pushes_total {w : Writing} {pieces : List Bytes} (hsmooth : Smooth sealer fails key)
    (hfits : sealer.Fits key) (h : w.Took bounds sealer key id total)
    (hwithin : (total ++ pieces.flatten).length ≤ bounds.bytes) :
    ∃ w', w.pushes bounds sealer fails key id pieces = .ok w' := by
  induction pieces generalizing w total with
  | nil => exact ⟨w, rfl⟩
  | cons bytes pieces ih =>
    rw [List.flatten_cons, ← List.append_assoc] at hwithin
    have hhere : (total ++ bytes).length ≤ bounds.bytes := by
      rw [List.length_append] at hwithin
      omega
    have hpushed : ∃ w', w.pushed bounds sealer fails key id bytes = .ok w' := by
      unfold Writing.pushed
      dsimp only
      have hsize : ¬ bounds.bytes < min (w.size + bytes.length) maxU64 := by
        rw [h.size, ← List.length_append]
        omega
      obtain ⟨hcut, hpart, hindex, hplaces, hseals⟩ := h.holds.append bytes
      rw [if_neg hsize]
      exact Writing.drain_total hsmooth hfits ⟨hcut, hpart, hindex, hplaces, hseals⟩ hhere
    obtain ⟨w₁, hw₁⟩ := hpushed
    rw [Writing.pushes, hw₁]
    exact ih (Writing.pushed_ok h hw₁) hwithin

/-- **An upload within the bounds comes through.** -/
theorem upload_total {pieces : List Bytes} (hsmooth : Smooth sealer fails key)
    (hfits : sealer.Fits key) (hwithin : pieces.flatten.length ≤ bounds.bytes) :
    ∃ stored, upload bounds sealer fails key id pieces = .ok stored := by
  have hnew : Writing.new.Took bounds sealer key id [] := Writing.took_new
  obtain ⟨w, hw⟩ := Writing.pushes_total hsmooth hfits hnew hwithin
  have htook : w.Took bounds sealer key id pieces.flatten := Writing.pushes_ok Writing.took_new hw
  obtain ⟨w₁, hwrite⟩ : ∃ w₁, w.write sealer fails key id w.pending true = .ok w₁ :=
    Writing.write_total hsmooth hfits htook.holds hwithin htook.short
  refine ⟨⟨w₁.part, w₁.size, w₁.made⟩, ?_⟩
  unfold upload Writing.finished
  rw [hw]
  dsimp only
  rw [hwrite]
  dsimp only
  rw [hsmooth.stores]

/-! ## The blocks by the size -/

theorem divCeil_eq (a : Nat) : divCeil a uploadBlockBytes =
    (a + uploadBlockBytes - 1) / uploadBlockBytes := by
  unfold divCeil uploadBlockBytes
  split_ifs <;> omega

/-- Below the greatest count, the blocks but the last are whole and the last holds the rest. -/
theorem within_blocks {a k : Nat} (h : blockCount a = k + 1) (hk : k + 1 < maxU32) :
    k * uploadBlockBytes ≤ a ∧ a ≤ (k + 1) * uploadBlockBytes := by
  have hcount : max (divCeil a uploadBlockBytes) 1 = k + 1 := by
    unfold blockCount at h
    omega
  rw [divCeil_eq] at hcount
  unfold uploadBlockBytes at *
  omega

/-- The size of an upload within the bounds follows from its last block. -/
theorem size_eq {a b : Nat} (ha : a < (maxU32 - 1) * uploadBlockBytes)
    (hcount : blockCount b = blockCount a)
    (hlast : blockLen b (blockCount a - 1) = blockLen a (blockCount a - 1)) : b = a := by
  obtain ⟨k, hk⟩ : ∃ k, blockCount a = k + 1 :=
    Nat.exists_eq_add_one_of_ne_zero (by unfold blockCount maxU32; omega)
  have hbelow : k + 1 < maxU32 := by
    have hceil : divCeil a uploadBlockBytes ≤ maxU32 - 1 := by
      rw [divCeil_eq]
      refine Nat.le_of_lt_succ ((Nat.div_lt_iff_lt_mul (by decide)).2 ?_)
      rw [Nat.succ_mul]
      exact Nat.lt_of_le_of_lt (Nat.sub_le _ 1) (Nat.add_lt_add_right ha _)
    rw [← hk]
    unfold blockCount
    have : 1 < maxU32 := by decide
    omega
  obtain ⟨hloa, hhia⟩ := within_blocks hk hbelow
  obtain ⟨hlob, hhib⟩ := within_blocks (hcount.trans hk) hbelow
  rw [hk, Nat.add_sub_cancel, blockLen, blockLen] at hlast
  rw [Nat.succ_mul] at hhia hhib
  omega

/-- As many blocks as the size states. -/
theorem Stored.Keeps.count (h : stored.Keeps sealer key id total)
    (hwithin : total.length ≤ bounds.bytes) : stored.made.length = blockCount stored.size := by
  have hcounted := bounds.counted
  rw [← List.length_map (f := Sealing.plain), h.blocks, length_inBlocks (by decide), blockCount,
    h.size, divCeil_eq, Nat.max_comm]
  unfold uploadBlockBytes maxU32 at *
  omega

/-- Each block as long as the size states. -/
theorem Stored.Keeps.length (h : stored.Keeps sealer key id total) {i : Nat} {s : Sealing}
    (hs : stored.made[i]? = some s) : s.plain.length = blockLen stored.size i := by
  have hplain : (inBlocks uploadBlockBytes total)[i]? = some s.plain := by
    rw [← h.blocks, List.getElem?_map, hs]
    rfl
  have hlt : i < (inBlocks uploadBlockBytes total).length := (List.getElem?_eq_some_iff.1 hplain).1
  rw [getElem?_inBlocks (by decide) hlt, Option.some.injEq] at hplain
  rw [← hplain, List.length_take, List.length_drop, blockLen, h.size, Nat.min_comm]

/-- Each sealed block fits in a record. -/
theorem Stored.Keeps.fits (h : stored.Keeps sealer key id total) (hfits : sealer.Fits key) {i : Nat}
    {s : Sealing} (hs : stored.made[i]? = some s) :
    s.out.length ≤ uploadBlockBytes + maxSealOverhead := by
  have hout := hfits _ _ _ (h.seals s (List.mem_of_getElem? hs))
  have hplain : s.plain.length ≤ uploadBlockBytes := by
    rw [h.length hs]
    exact Nat.min_le_right _ _
  omega

/-! ## What reads back -/

/-- From any place on, the blocks that lie there read back. By induction on these blocks. -/
theorem Stored.Keeps.read_from (h : stored.Keeps sealer key id total)
    (hwithin : total.length ≤ bounds.bytes) (hfits : sealer.Fits key)
    (hopens : sealer.Opens key id stored.made) {rest : List Sealing} {r : Reader}
    (hrest : stored.made.drop r.index = rest) (hfile : r.file = recordsOf rest)
    (hsize : r.size = stored.size) :
    r.read sealer key id = .ok (rest.map Sealing.plain).flatten := by
  have hcount : stored.made.length = blockCount r.size := by rw [hsize, h.count hwithin]
  induction rest generalizing r with
  | nil =>
    have hend : r.index = blockCount r.size := by
      have hle := List.drop_eq_nil_iff.1 hrest
      have hreach := r.reach
      omega
    exact Reader.read_end hend
  | cons s rest ih =>
    have hs : stored.made[r.index]? = some s := by
      rw [← List.head?_drop, hrest, List.head?_cons]
    have hlt : r.index < blockCount r.size := by
      rw [← hcount]
      exact (List.getElem?_eq_some_iff.1 hs).1
    have htail : stored.made.drop (r.index + 1) = rest := by
      rw [← List.tail_drop, hrest, List.tail_cons]
    have hopen : sealer.openBlock key ⟨id, r.index, decide (r.index + 1 = blockCount r.size)⟩
        s.out = some s.plain := by
      refine (hopens _ _ _ rfl).2 ?_
      rw [← hcount, ← h.places r.index s hs]
      exact List.mem_of_getElem? hs
    have hclosed : r.index + 1 = blockCount r.size → recordsOf rest = [] := by
      intro hlast
      rw [← htail, List.drop_eq_nil_of_le (by omega), recordsOf_nil]
    have hnext : r.next sealer key id =
        .ok (some (s.plain, ⟨recordsOf rest, r.size, r.index + 1, hlt⟩)) :=
      Reader.next_some.2 ⟨s.out, hlt, by rw [hfile, recordsOf_cons], h.fits hfits hs, hopen,
        by rw [h.length hs, hsize], hclosed, rfl, rfl⟩
    have hread := ih (r := ⟨recordsOf rest, r.size, r.index + 1, hlt⟩) htail rfl hsize hcount
    rw [Reader.read_cons hnext hread, List.map_cons, List.flatten_cons]

/-- **What was stored reads back.** -/
theorem Stored.Keeps.read (h : stored.Keeps sealer key id total)
    (hwithin : total.length ≤ bounds.bytes) (hfits : sealer.Fits key)
    (hopens : sealer.Opens key id stored.made) :
    (Reader.of stored.file stored.size).read sealer key id = .ok total := by
  have hstart : stored.made.drop (Reader.of stored.file stored.size).index = stored.made := rfl
  rw [h.read_from hwithin hfits hopens hstart h.file rfl, h.blocks, flatten_inBlocks]

/-- From any place on, only the blocks that lie there read to an end, under a size with as many blocks
and a last one as long. By induction on the blocks the size leaves. -/
theorem Stored.Keeps.only_from (h : stored.Keeps sealer key id total)
    (hopens : sealer.Opens key id stored.made) {r : Reader} {bytes : Bytes}
    (hread : r.read sealer key id = .ok bytes) (hlt : r.index < blockCount r.size) :
    r.file = recordsOf (stored.made.drop r.index) ∧ blockCount r.size = stored.made.length ∧
      blockLen r.size (stored.made.length - 1) =
        blockLen stored.size (stored.made.length - 1) := by
  induction hn : blockCount r.size - r.index generalizing r bytes with
  | zero => omega
  | succ n ih =>
    obtain ⟨plain, s, rest, hnext, hrest, -⟩ := Reader.read_ok hread hlt
    obtain ⟨out, -, hfile, -, hopen, hplain, hclosed, hsize, hindex⟩ := Reader.next_some.1 hnext
    obtain ⟨i, hi⟩ := List.mem_iff_getElem?.1 ((hopens _ _ _ rfl).1 hopen)
    have hplace := h.places i _ hi
    simp only [Block.mk.injEq, true_and, decide_eq_decide] at hplace
    obtain ⟨rfl, hlast⟩ := hplace
    have hin : r.index < stored.made.length := (List.getElem?_eq_some_iff.1 hi).1
    have hdrop : stored.made.drop r.index = ⟨_, plain, out⟩ :: stored.made.drop (r.index + 1) :=
      List.drop_eq_getElem?_toList_append.trans (by rw [hi]; rfl)
    by_cases hend : r.index + 1 = blockCount r.size
    · have hmade := hlast.1 hend
      have hcut : stored.made.drop (r.index + 1) = [] := List.drop_eq_nil_of_le (by omega)
      refine ⟨?_, by omega, ?_⟩
      · rw [hfile, hclosed hend, hdrop, hcut, recordsOf_cons, recordsOf_nil]
      · have hwhere : stored.made.length - 1 = r.index := by omega
        rw [hwhere, ← hplain, ← h.length hi]
    · have hmore : s.index < blockCount s.size := by
        rw [hindex, hsize]
        omega
      obtain ⟨hfile', hcount, hlength⟩ := ih hrest hmore (by rw [hindex, hsize]; omega)
      rw [hsize] at hcount hlength
      refine ⟨?_, hcount, hlength⟩
      rw [hfile, hfile', hdrop, hindex, recordsOf_cons]

/-- **Whatever reads back is what was stored.** -/
theorem Stored.Keeps.only (h : stored.Keeps sealer key id total)
    (hwithin : total.length ≤ bounds.bytes) (hopens : sealer.Opens key id stored.made)
    {file bytes : Bytes} {size : Nat}
    (hread : (Reader.of file size).read sealer key id = .ok bytes) :
    file = stored.file ∧ size = stored.size := by
  have hstart : (Reader.of file size).index < blockCount (Reader.of file size).size := by
    change 0 < blockCount size
    unfold blockCount maxU32
    omega
  obtain ⟨hfile, hcount, hlength⟩ := h.only_from hopens hread hstart
  have hmade := h.count hwithin
  refine ⟨hfile.trans h.file.symm, size_eq ?_ (hcount.trans hmade) (by rwa [← hmade])⟩
  rw [h.size]
  exact Nat.lt_of_le_of_lt hwithin bounds.counted

/-! ## The whole story -/

end

/-- **An upload reads back as what was pushed, and nothing else in its place reads to an end.** -/
theorem read_back (bounds : Bounds) (sealer : Sealer) (fails : Call → Option UploadError)
    (key : AccountKey) (id : UploadId) (hfits : sealer.Fits key) (pieces : List Bytes)
    (hwithin : pieces.flatten.length ≤ bounds.bytes) :
    (Smooth sealer fails key → ∃ stored, upload bounds sealer fails key id pieces = .ok stored) ∧
      ∀ stored, upload bounds sealer fails key id pieces = .ok stored →
        sealer.Opens key id stored.made →
          (Reader.of stored.file stored.size).read sealer key id = .ok pieces.flatten ∧
            ∀ file size, file ≠ stored.file ∨ size ≠ stored.size →
              (Reader.of file size).read sealer key id = .error .broken := by
  refine ⟨fun hsmooth => upload_total hsmooth hfits hwithin, fun stored hstored hopens => ?_⟩
  obtain ⟨hkeeps, -⟩ := upload_blocks hstored
  refine ⟨hkeeps.read hwithin hfits hopens, fun file size hother => ?_⟩
  cases hread : (Reader.of file size).read sealer key id with
  | error e => rfl
  | ok bytes =>
    obtain ⟨hfile, hsize⟩ := hkeeps.only hwithin hopens hread
    exact absurd hsize (hother.resolve_left (not_not.2 hfile))

/-- A cipher that marks what it seals and opens the one block it sealed, under one account. -/
def tabledSealer (key : AccountKey) (s : Sealing) : Sealer where
  sealBlock _ _ plain := some (plain ++ [0])
  openBlock k block out := if k = key ∧ block = s.block ∧ out = s.out then some s.plain else none

/-- One upload of three bytes, its only block sealed. -/
def threeBytes : Sealing := ⟨⟨"U1", 0, true⟩, [1, 2, 3], [1, 2, 3, 0]⟩

theorem upload_three : upload BOUNDS (tabledSealer "a1" threeBytes) (fun _ => none) "a1" "U1"
    [[1, 2], [3]] = .ok ⟨[0, 0, 0, 4, 1, 2, 3, 0], 3, [threeBytes]⟩ := by
  have hdrain : ∀ (w : Writing) (pending : Bytes), pending.length ≤ uploadBlockBytes →
      w.drain (tabledSealer "a1" threeBytes) (fun _ => none) "a1" "U1" pending =
        .ok { w with pending } := by
    intro w pending hshort
    rw [Writing.drain, if_neg (Nat.not_lt.2 hshort)]
  simp only [upload, Writing.pushes, Writing.pushed]
  rw [if_neg (by decide), hdrain _ _ (by decide)]
  dsimp only
  rw [if_neg (by decide), hdrain _ _ (by decide)]
  rfl

theorem read_back_three :
    (Reader.of [0, 0, 0, 4, 1, 2, 3, 0] 3).read (tabledSealer "a1" threeBytes) "a1" "U1" =
        .ok [1, 2, 3] ∧
      ∀ file size, file ≠ [0, 0, 0, 4, 1, 2, 3, 0] ∨ size ≠ 3 →
        (Reader.of file size).read (tabledSealer "a1" threeBytes) "a1" "U1" =
          .error .broken := by
  have hfits : (tabledSealer "a1" threeBytes).Fits "a1" := by
    intro block plain out hout
    cases hout
    rw [List.length_append]
    exact Nat.add_le_add_left (by decide) _
  refine (read_back BOUNDS _ (fun _ => none) "a1" "U1" hfits [[1, 2], [3]] (by decide)).2 _
    upload_three ?_
  intro block plain out _
  rw [List.mem_singleton]
  change (if _ then _ else _) = _ ↔ _
  split_ifs with htable
  · obtain ⟨-, rfl, rfl⟩ := htable
    constructor
    · intro h
      cases h
      rfl
    · intro h
      cases h
      rfl
  · refine iff_of_false (fun h => by cases h) fun h => htable ?_
    cases h
    exact ⟨rfl, rfl, rfl⟩

end Huliho.Uploads
