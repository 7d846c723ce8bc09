import Huliho.Uploads.Directory
import Mathlib.Data.List.Induction
import Mathlib.Data.List.Sort
import Mathlib.Data.String.Basic
import Mathlib.Logic.Function.Basic

/-!
# Room for an upload

`disk.rs`: the listing a write makes room by, and the eviction, oldest first. `makeRoom` evicts one
completed upload after the other until the ask fits or none is left.
-/

namespace Huliho.Uploads

/-- What a write asks room for: so many more uploads, and so many octets. -/
structure Ask where
  more : Nat
  bytes : Nat
deriving DecidableEq, Repr

/-- What an account's directory holds: its completed uploads and the uploads in flight, with the
octets both take on disk. -/
structure Listing where
  done : List UploadId
  inFlight : Nat
  used : Nat
  lengths : UploadId → Option Nat

/-- A listing before its first entry. -/
def Listing.empty : Listing := ⟨[], 0, 0, fun _ => none⟩

/-- One file listed. -/
def Listing.add (l : Listing) (f : File) : Listing :=
  let used := min (l.used + f.length) maxU64
  match f.name with
  | .part _ => { l with inFlight := l.inFlight + 1, used }
  | .done id =>
    { l with done := l.done ++ [id], used, lengths := Function.update l.lengths id (some f.length) }

/-- One entry of the directory listed; a file gone in the meantime is passed over. -/
def Listing.read (l : Listing) (d : Dir) (n : Name) : Listing :=
  match d.find n with
  | none => l
  | some f => l.add f

/-- The listing of a directory. -/
def Listing.of (d : Dir) : Listing := d.names.foldl (fun l n => l.read d n) .empty

/-- An upload with its age: one without its sidecar goes first, since it opens for no one. -/
abbrev Aged := Option Nat × UploadId

def Older (a b : Aged) : Prop :=
  match a.1, b.1 with
  | none, none => a.2 ≤ b.2
  | none, some _ => True
  | some _, none => False
  | some x, some y => x < y ∨ x = y ∧ a.2 ≤ b.2

instance (a b : Aged) : Decidable (Older a b) :=
  match a, b with
  | (none, i), (none, j) => inferInstanceAs (Decidable (i ≤ j))
  | (none, _), (some _, _) => inferInstanceAs (Decidable True)
  | (some _, _), (none, _) => inferInstanceAs (Decidable False)
  | (some x, i), (some y, j) => inferInstanceAs (Decidable (x < y ∨ x = y ∧ i ≤ j))

/-- The uploads of a listing in the order in which they are evicted. -/
def aged (d : Dir) (done : List UploadId) : List Aged :=
  (done.map fun id => (d.created id, id)).insertionSort Older

/-- Which of an upload's two files could not be removed. -/
inductive Fault
  | bytes
  | sidecar
deriving DecidableEq, Repr

section
variable (bounds : Bounds) (faults : UploadId → Option Fault) (ask : Ask) (l : Listing)

/-- Removes an upload's bytes and its sidecar. -/
def remove (id : UploadId) (d : Dir) : Option UploadError × Dir :=
  match faults id with
  | none => (none, d.remove (.done id))
  | some .bytes => (some .io, d)
  | some .sidecar => (some .io, d.remove (.done id))

/-- Whether the ask does not fit beside so many completed uploads and so many octets. -/
def Listing.Crowded (done used : Nat) : Prop :=
  bounds.count < done + l.inFlight + ask.more ∨ bounds.quota < min (used + ask.bytes) maxU64

instance (done used : Nat) : Decidable (l.Crowded bounds ask done used) :=
  inferInstanceAs (Decidable (_ ∨ _))

/-- The oldest uploads removed until the ask fits. -/
def Listing.evict : List Aged → Nat → Dir → Option UploadError × Dir
  | [], used, d => if l.Crowded bounds ask 0 used then (some .overQuota, d) else (none, d)
  | (_, oldest) :: aged, used, d =>
    if l.Crowded bounds ask (aged.length + 1) used then
      match remove faults oldest d with
      | (some e, d) => (some e, d)
      | (none, d) => evict aged (used - (l.lengths oldest).getD 0) d
    else (none, d)

/-- Evicts the oldest completed uploads until what is asked for fits. -/
def Listing.makeRoom (d : Dir) : Option UploadError × Dir :=
  if l.Crowded bounds ask l.done.length l.used then
    l.evict bounds faults ask (aged d l.done) l.used d
  else (none, d)

end

/-! ## The order -/

theorem older_total (a b : Aged) : Older a b ∨ Older b a := by
  obtain ⟨x, i⟩ := a
  obtain ⟨y, j⟩ := b
  cases x <;> cases y <;> simp only [Older]
  · exact le_total i j
  · exact .inl trivial
  · exact .inr trivial
  · rename_i x y
    rcases Nat.lt_trichotomy x y with h | rfl | h
    · exact .inl (.inl h)
    · exact (le_total i j).imp (fun h => .inr ⟨rfl, h⟩) fun h => .inr ⟨rfl, h⟩
    · exact .inr (.inl h)

theorem older_trans {a b c : Aged} (hab : Older a b) (hbc : Older b c) : Older a c := by
  obtain ⟨x, i⟩ := a
  obtain ⟨y, j⟩ := b
  obtain ⟨z, k⟩ := c
  cases x <;> cases y <;> cases z <;> simp only [Older] at *
  · exact hab.trans hbc
  · rcases hab with h | ⟨rfl, h⟩
    · exact .inl (hbc.elim (h.trans ·) fun h' => h'.1 ▸ h)
    · exact hbc.imp_right fun h' => ⟨h'.1, h.trans h'.2⟩

instance : Std.Total Older := ⟨older_total⟩

instance : IsTrans Aged Older := ⟨fun _ _ _ => older_trans⟩

/-- The order of eviction names each upload of the listing once, the oldest first. -/
theorem pairwise_aged (d : Dir) (done : List UploadId) : (aged d done).Pairwise Older :=
  List.pairwise_insertionSort Older _

theorem perm_aged (d : Dir) (done : List UploadId) : ((aged d done).map Prod.snd).Perm done := by
  have hperm := (List.perm_insertionSort Older (done.map fun id => (d.created id, id))).map Prod.snd
  have hid : Prod.snd ∘ (fun id => (d.created id, id)) = id := rfl
  rwa [List.map_map, hid, List.map_id] at hperm

/-! ## What a listing says -/

/-- The listing of some files, one after the other. -/
def listed (files : List File) : Listing := files.foldl Listing.add .empty

theorem listed_concat (files : List File) (f : File) :
    listed (files ++ [f]) = (listed files).add f := by
  unfold listed
  rw [List.foldl_append, List.foldl_cons, List.foldl_nil]

theorem Listing.of_eq (d : Dir) : Listing.of d = listed d.files := by
  unfold Listing.of listed Dir.names
  rw [List.foldl_map]
  have hread : ∀ (l : Listing), ∀ f ∈ d.files, l.read d f.name = l.add f := by
    intro l f hf
    rw [Listing.read, Dir.find_eq_some.2 ⟨hf, rfl⟩]
  exact List.foldl_ext _ _ _ hread

/-- What a listing says of the files it read. -/
theorem listed_spec (files : List File) :
    (listed files).done = files.filterMap File.done ∧
      (listed files).inFlight = (files.filter File.inFlight).length ∧
      (listed files).used = min (files.map File.length).sum maxU64 := by
  induction files using List.reverseRecOn with
  | nil => exact ⟨rfl, rfl, rfl⟩
  | append_singleton files f ih =>
    obtain ⟨hdone, hflight, hused⟩ := ih
    rw [listed_concat, List.filterMap_append, List.filter_append, List.map_append, List.sum_append,
      List.length_append]
    unfold Listing.add File.inFlight File.done
    obtain ⟨name, length, created, modified⟩ := f
    cases name with
    | done id =>
      refine ⟨congrArg (· ++ [id]) hdone, hflight, ?_⟩
      change min (_ + length) maxU64 = min (_ + length) maxU64
      rw [hused]
      omega
    | part id =>
      refine ⟨hdone.trans (List.append_nil _).symm, congrArg (· + 1) hflight, ?_⟩
      change min (_ + length) maxU64 = min (_ + length) maxU64
      rw [hused]
      omega

/-- The length of an upload as listed, where no other file has its name. -/
theorem listed_lengths {files : List File} {f : File} {id : UploadId} (hf : f ∈ files)
    (hname : f.name = .done id) (hone : ∀ g ∈ files, g.name = .done id → g = f) :
    (listed files).lengths id = some f.length := by
  induction files using List.reverseRecOn with
  | nil => cases hf
  | append_singleton files g ih =>
    have hsub : ∀ g ∈ files, g.name = .done id → g = f :=
      fun g hg => hone g (List.mem_append_left _ hg)
    rw [listed_concat]
    by_cases hg : g.name = .done id
    · rw [Listing.add, hg, hone g (List.mem_append_right _ (List.mem_singleton_self g)) hg]
      exact Function.update_self _ _ _
    · have hin : f ∈ files := by
        rcases List.mem_append.1 hf with hf | hf
        · exact hf
        · exact absurd (List.mem_singleton.1 hf ▸ hname) hg
      have hkept : ((listed files).add g).lengths id = (listed files).lengths id := by
        unfold Listing.add
        cases hname : g.name with
        | done j =>
          exact Function.update_of_ne (fun h => hg (by rw [hname, h])) _ _
        | part j => rfl
      rw [hkept, ih hin hsub]

/-! ## What the eviction does -/

section
variable {bounds : Bounds} {faults : UploadId → Option Fault} {ask : Ask} {l : Listing}

/-- The octets some uploads free, as listed. -/
def Listing.freed (l : Listing) (ids : List UploadId) : Nat :=
  (ids.map fun id => (l.lengths id).getD 0).sum

theorem Listing.freed_cons (l : Listing) (id : UploadId) (ids : List UploadId) :
    l.freed (id :: ids) = (l.lengths id).getD 0 + l.freed ids := rfl

theorem remove_cases (faults : UploadId → Option Fault) (id : UploadId) (d : Dir) :
    remove faults id d = (none, d.without [id]) ∨
      ∃ ids, remove faults id d = (some .io, d.without ids) := by
  have hone : d.without [id] = d.remove (.done id) := by rw [Dir.without_cons, Dir.without_nil]
  unfold remove
  rw [hone]
  split
  · exact .inl rfl
  · exact .inr ⟨[], by rw [Dir.without_nil]⟩
  · exact .inr ⟨[id], by rw [hone]⟩

/-- **The eviction stops at the first place where the ask fits**, at the end of the order, or where a
file cannot be removed. By induction on the order. -/
theorem evict_spec (bounds : Bounds) (faults : UploadId → Option Fault) (ask : Ask) (l : Listing)
    (order : List Aged) (used : Nat) (d : Dir) :
    ∃ n ≤ order.length,
      (∀ m < n, l.Crowded bounds ask (order.length - m)
        (used - l.freed ((order.map Prod.snd).take m))) ∧
      ((l.evict bounds faults ask order used d = (none, d.without ((order.map Prod.snd).take n)) ∧
          ¬ l.Crowded bounds ask (order.length - n)
            (used - l.freed ((order.map Prod.snd).take n))) ∨
        (l.evict bounds faults ask order used d =
            (some .overQuota, d.without ((order.map Prod.snd).take n)) ∧ n = order.length ∧
          l.Crowded bounds ask (order.length - n)
            (used - l.freed ((order.map Prod.snd).take n))) ∨
        ∃ ids, l.evict bounds faults ask order used d = (some .io, d.without ids)) := by
  induction order generalizing used d with
  | nil =>
    refine ⟨0, Nat.le_refl _, fun m hm => absurd hm (Nat.not_lt_zero _), ?_⟩
    rw [List.map_nil, List.take_nil, Dir.without_nil, Listing.evict]
    split_ifs with hcrowded
    · exact .inr (.inl ⟨rfl, rfl, hcrowded⟩)
    · exact .inl ⟨rfl, hcrowded⟩
  | cons a order ih =>
    obtain ⟨created, oldest⟩ := a
    rw [Listing.evict]
    by_cases hcrowded : l.Crowded bounds ask (order.length + 1) used
    · rw [if_pos hcrowded]
      rcases remove_cases faults oldest d with hremove | ⟨ids, hremove⟩
      · obtain ⟨n, hn, hbefore, hend⟩ := ih (used - (l.lengths oldest).getD 0) (d.without [oldest])
        have hfreed : ∀ m, used - (l.lengths oldest).getD 0 -
            l.freed ((order.map Prod.snd).take m) =
              used - l.freed (((created, oldest) :: order).map Prod.snd |>.take (m + 1)) := by
          intro m
          rw [List.map_cons, List.take_succ_cons, Listing.freed_cons, Nat.sub_sub]
        have hwithout : ∀ m, (d.without [oldest]).without ((order.map Prod.snd).take m) =
            d.without (((created, oldest) :: order).map Prod.snd |>.take (m + 1)) := by
          intro m
          rw [List.map_cons, List.take_succ_cons, Dir.without_cons, Dir.without_cons,
            Dir.without_nil]
        have hlength : ∀ m, order.length - m = ((created, oldest) :: order).length - (m + 1) := by
          intro m
          rw [List.length_cons]
          omega
        rw [hremove]
        refine ⟨n + 1, Nat.succ_le_succ hn, fun m hm => ?_, ?_⟩
        · cases m with
          | zero => exact hcrowded
          | succ m =>
            rw [← hlength, ← hfreed]
            exact hbefore m (Nat.lt_of_succ_lt_succ hm)
        · rw [hfreed, hwithout, hlength] at hend
          rcases hend with hend | ⟨heq, hlast, hend⟩ | ⟨ids, hend⟩
          · exact .inl hend
          · exact .inr (.inl ⟨heq, congrArg (· + 1) hlast, hend⟩)
          · refine .inr (.inr ⟨oldest :: ids, hend.trans ?_⟩)
            rw [Dir.without_cons, Dir.without_cons, Dir.without_nil]
      · refine ⟨0, Nat.zero_le _, fun m hm => absurd hm (Nat.not_lt_zero _), .inr (.inr ⟨ids, ?_⟩)⟩
        rw [hremove]
    · refine ⟨0, Nat.zero_le _, fun m hm => absurd hm (Nat.not_lt_zero _), .inl ⟨?_, hcrowded⟩⟩
      rw [if_neg hcrowded, List.take_zero, Dir.without_nil]

/-- The uploads of a listing in the order in which they are evicted, by name. -/
def order (d : Dir) (l : Listing) : List UploadId := (aged d l.done).map Prod.snd

theorem length_order (d : Dir) (l : Listing) : (order d l).length = l.done.length :=
  (perm_aged d l.done).length_eq

/-- Where room is made: at the first place of the order where the ask fits. -/
theorem makeRoom_spec (bounds : Bounds) (faults : UploadId → Option Fault) (ask : Ask) (l : Listing)
    (d : Dir) :
    ∃ n ≤ (order d l).length,
      (∀ m < n, l.Crowded bounds ask ((order d l).length - m)
        (l.used - l.freed ((order d l).take m))) ∧
      ((l.makeRoom bounds faults ask d = (none, d.without ((order d l).take n)) ∧
          ¬ l.Crowded bounds ask ((order d l).length - n)
            (l.used - l.freed ((order d l).take n))) ∨
        (l.makeRoom bounds faults ask d = (some .overQuota, d.without ((order d l).take n)) ∧
          n = (order d l).length ∧
          l.Crowded bounds ask ((order d l).length - n)
            (l.used - l.freed ((order d l).take n))) ∨
        ∃ ids, l.makeRoom bounds faults ask d = (some .io, d.without ids)) := by
  unfold Listing.makeRoom
  split_ifs with hcrowded
  · have hspec := evict_spec bounds faults ask l (aged d l.done) l.used d
    rw [← List.length_map (f := Prod.snd)] at hspec
    exact hspec
  · refine ⟨0, Nat.zero_le _, fun m hm => absurd hm (Nat.not_lt_zero _), .inl ⟨?_, ?_⟩⟩
    · rw [List.take_zero, Dir.without_nil]
    · rw [List.take_zero, length_order]
      exact hcrowded

end

/-! ## When the ask fits -/

/-- What is asked for fits beside what the directory holds. -/
def Dir.Fits (d : Dir) (bounds : Bounds) (ask : Ask) : Prop :=
  d.count + ask.more ≤ bounds.count ∧ d.used + ask.bytes ≤ bounds.quota

instance (d : Dir) (bounds : Bounds) (ask : Ask) : Decidable (d.Fits bounds ask) :=
  inferInstanceAs (Decidable (_ ∧ _))

/-- A listing that read every file of a directory, and files in flight that are gone by now. -/
structure Listing.Covers (l : Listing) (d : Dir) (gone : List File) : Prop where
  done : l.done.Perm d.done
  count : l.done.length + l.inFlight = d.count + gone.length
  used : l.used = min (d.used + (gone.map File.length).sum) maxU64
  lengths : ∀ id ∈ d.done, (l.lengths id).getD 0 = d.lengthOf id

theorem covers_listed {d : Dir} {read gone : List File} (hgone : ∀ f ∈ gone, f.inFlight = true)
    (hread : read.Perm (d.files ++ gone)) : (listed read).Covers d gone := by
  obtain ⟨hdone, hflight, hused⟩ := listed_spec read
  have hpart : gone.filterMap File.done = [] :=
    List.filterMap_eq_nil_iff.2 fun f hf => Option.isNone_iff_eq_none.1 (hgone f hf)
  have hperm : (listed read).done.Perm d.done := by
    have hperm := hread.filterMap File.done
    rwa [List.filterMap_append, hpart, List.append_nil, ← hdone] at hperm
  refine ⟨hperm, ?_, ?_, fun id hid => ?_⟩
  · have hlength := (hread.filter File.inFlight).length_eq
    rw [List.filter_append, List.length_append, List.filter_eq_self.2 hgone] at hlength
    rw [hperm.length_eq, hflight, hlength, d.count_eq, Nat.add_assoc]
  · have hsum := (hread.map File.length).sum_eq
    rw [List.map_append, List.sum_append] at hsum
    rw [hused, hsum]
    rfl
  · obtain ⟨f, hf⟩ := Dir.find_done hid
    obtain ⟨hmem, hname⟩ := Dir.find_eq_some.1 hf
    have hone : ∀ g ∈ read, g.name = .done id → g = f := by
      intro g hg hgname
      rcases List.mem_append.1 (hread.subset hg) with hg | hg
      · have hsame := Dir.find_eq_some.2 ⟨hg, hgname⟩
        rw [hf, Option.some.injEq] at hsame
        exact hsame.symm
      · have hflight := hgone g hg
        rw [File.inFlight, File.done, hgname] at hflight
        cases hflight
    rw [listed_lengths (hread.symm.subset (List.mem_append_left _ hmem)) hname hone, Dir.lengthOf,
      hf]
    rfl

section
variable {bounds : Bounds} {faults : UploadId → Option Fault} {ask : Ask} {l : Listing} {d d' : Dir}
  {gone : List File}

/-- What the first uploads of the order take with them. -/
theorem Listing.Covers.taken (h : l.Covers d gone) (m : Nat) :
    (d.without ((order d l).take m)).used + l.freed ((order d l).take m) = d.used ∧
      (d.without ((order d l).take m)).count + min m (order d l).length = d.count := by
  have hperm : (order d l).Perm d.done := (perm_aged d l.done).trans h.done
  have hin : ∀ id ∈ (order d l).take m, id ∈ d.done :=
    fun id hid => hperm.subset (List.mem_of_mem_take hid)
  have hnodup : ((order d l).take m).Nodup :=
    (hperm.nodup_iff.2 d.nodup_done).sublist (List.take_sublist _ _)
  have hfreed : l.freed ((order d l).take m) = (((order d l).take m).map d.lengthOf).sum :=
    congrArg List.sum (List.map_congr_left fun id hid => h.lengths id (hin id hid))
  have htaken := Dir.used_without hnodup hin
  rwa [← hfreed, List.length_take] at htaken

/-- Where the listing is not crowded the ask fits: what is gone by now only made more room. -/
theorem Listing.Covers.fits (h : l.Covers d gone) (hword : d.used ≤ maxU64) {m : Nat}
    (hm : m ≤ (order d l).length)
    (hroom : ¬ l.Crowded bounds ask ((order d l).length - m) (l.used - l.freed ((order d l).take m))) :
    (d.without ((order d l).take m)).Fits bounds ask := by
  obtain ⟨hused, hcount⟩ := h.taken m
  have hlisted := h.count
  have hwhole := h.used
  have hsummed := bounds.summed
  rw [← length_order d l] at hlisted
  unfold Listing.Crowded at hroom
  unfold Dir.Fits
  omega

/-- Where a listing with nothing gone is crowded the ask does not fit. -/
theorem Listing.Covers.crowded (h : l.Covers d []) (hword : d.used ≤ maxU64) {m : Nat}
    (hm : m ≤ (order d l).length)
    (hcrowded : l.Crowded bounds ask ((order d l).length - m)
      (l.used - l.freed ((order d l).take m))) :
    ¬ (d.without ((order d l).take m)).Fits bounds ask := by
  obtain ⟨hused, hcount⟩ := h.taken m
  have hlisted := h.count
  have hwhole := h.used
  rw [← length_order d l] at hlisted
  rw [List.map_nil, List.sum_nil] at hwhole
  rw [List.length_nil] at hlisted
  unfold Listing.Crowded at hcrowded
  unfold Dir.Fits
  omega

/-- **Room made is room**, whatever is gone by now. -/
theorem Listing.Covers.room (h : l.Covers d gone) (hword : d.used ≤ maxU64)
    (hroom : l.makeRoom bounds faults ask d = (none, d')) : d'.Fits bounds ask := by
  obtain ⟨n, hn, -, ⟨hdone, hfits⟩ | ⟨hdone, -⟩ | ⟨ids, hdone⟩⟩ :=
    makeRoom_spec bounds faults ask l d
  · rw [hdone, Prod.mk.injEq] at hroom
    rw [← hroom.2]
    exact h.fits hword hn hfits
  · rw [hdone] at hroom
    cases hroom
  · rw [hdone] at hroom
    cases hroom

/-- Room is made by removing uploads that lay in their place, and nothing else. -/
theorem makeRoom_without (bounds : Bounds) (faults : UploadId → Option Fault) (ask : Ask)
    (l : Listing) (d : Dir) :
    ∃ ids, (l.makeRoom bounds faults ask d).2 = d.without ids := by
  obtain ⟨n, -, -, ⟨hdone, -⟩ | ⟨hdone, -⟩ | ⟨ids, hdone⟩⟩ :=
    makeRoom_spec bounds faults ask l d
  · exact ⟨_, congrArg Prod.snd hdone⟩
  · exact ⟨_, congrArg Prod.snd hdone⟩
  · exact ⟨_, congrArg Prod.snd hdone⟩

end

end Huliho.Uploads
