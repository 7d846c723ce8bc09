import Huliho.Uploads.Files
import Mathlib.Algebra.Order.BigOperators.Group.List
import Mathlib.Algebra.Order.Ring.Nat
import Mathlib.Data.List.Nodup

/-!
# An account's directory

A `Dir` is what the store sees of an account's directory: its files, each name once, an upload in its
place with what the sidecar beside it says of its arrival, or one still being written. Names that name
no upload are left out, as the store skips them. What a change does to the octets and to the number of
uploads is one lemma each (**`used_remove`**, **`used_put`**, **`used_without`** and their `count`
twins).
-/

namespace Huliho.Uploads

/-- What a file is named: an upload in its place, or one still being written. -/
inductive Name
  | done (id : UploadId)
  | part (id : UploadId)
deriving DecidableEq, Repr

/-- One file with its length. What the sidecar beside it says of its arrival is in seconds; `none`
where it cannot be read. -/
structure File where
  name : Name
  length : Nat
  created : Option Nat
  modified : Nat
deriving DecidableEq, Repr

/-- The upload that lies in its place under a name. -/
def Name.inPlace : Name → Option UploadId
  | .done id => some id
  | .part _ => none

/-- The upload a file holds, when it lies in its place. -/
def File.done (f : File) : Option UploadId := f.name.inPlace

/-- Whether a file is still being written. -/
def File.inFlight (f : File) : Bool := f.done.isNone

/-- The files of a directory, each name once. -/
structure Dir where
  files : List File
  distinct : (files.map File.name).Nodup

namespace Dir

variable (d : Dir) (n : Name) (f : File) (p : File → Bool)

def names : List Name := d.files.map File.name

/-- The uploads in their place. -/
def done : List UploadId := d.files.filterMap File.done

/-- The octets the files take. -/
def used : Nat := (d.files.map File.length).sum

/-- The uploads, in flight ones counted. -/
def count : Nat := d.files.length

def find : Option File := d.files.find? fun f => f.name = n

/-- What the sidecar beside an upload says of its arrival. -/
def created (id : UploadId) : Option Nat := (d.find (.done id)).bind File.created

/-- Some of the files. -/
def keep : Dir := ⟨d.files.filter p, d.distinct.sublist (List.filter_sublist.map _)⟩

def remove : Dir := d.keep fun f => f.name ≠ n

/-- A file written, or written over. -/
def put : Dir where
  files := (d.remove f.name).files ++ [f]
  distinct := by
    rw [List.map_append, List.nodup_append]
    refine ⟨(d.remove f.name).distinct, List.nodup_singleton _, fun a ha b hb hab => ?_⟩
    obtain ⟨g, hg, rfl⟩ := List.mem_map.1 ha
    obtain rfl := List.mem_singleton.1 hb
    exact of_decide_eq_true (List.mem_filter.1 hg).2 hab

/-- The directory without some uploads that were in their place. -/
def without (ids : List UploadId) : Dir :=
  d.keep fun f => ∀ id ∈ ids, f.name ≠ .done id

variable {d n f p} {id : UploadId} {ids : List UploadId}

/-! ## What a change does to them -/

theorem find_eq_some : d.find n = some f ↔ f ∈ d.files ∧ f.name = n := by
  unfold find
  constructor
  · intro h
    exact ⟨List.mem_of_find?_eq_some h, by simpa using List.find?_some h⟩
  · rintro ⟨hf, rfl⟩
    obtain ⟨g, hg⟩ : ∃ g, d.files.find? (fun g => g.name = f.name) = some g := by
      cases h : d.files.find? (fun g => g.name = f.name) with
      | some g => exact ⟨g, rfl⟩
      | none => exact absurd (decide_eq_true rfl) (List.find?_eq_none.1 h f hf)
    have hname : g.name = f.name := by simpa using List.find?_some hg
    rw [hg, List.inj_on_of_nodup_map d.distinct (List.mem_of_find?_eq_some hg) hf hname]

theorem find_eq_none : d.find n = none ↔ n ∉ d.names := by
  unfold find names
  rw [List.find?_eq_none]
  constructor
  · intro h hn
    obtain ⟨f, hf, rfl⟩ := List.mem_map.1 hn
    exact h f hf (decide_eq_true rfl)
  · intro h f hf hname
    exact h (List.mem_map.2 ⟨f, hf, of_decide_eq_true hname⟩)

theorem used_keep_le : (d.keep p).used ≤ d.used :=
  (List.filter_sublist.map _).sum_le_sum fun _ _ => Nat.zero_le _

theorem count_keep_le : (d.keep p).count ≤ d.count := List.filter_sublist.length_le

/-- A file stands apart from those with another name. -/
theorem perm_remove (hf : f ∈ d.files) : d.files.Perm (f :: (d.remove f.name).files) := by
  change d.files.Perm (f :: d.files.filter fun g => g.name ≠ f.name)
  have hdistinct := d.distinct
  generalize d.files = l at hf hdistinct
  induction l with
  | nil => cases hf
  | cons g l ih =>
    rw [List.map_cons, List.nodup_cons] at hdistinct
    rcases List.mem_cons.1 hf with rfl | hl
    · rw [List.filter_cons_of_neg (by simp), List.filter_eq_self.2]
      intro h hh
      exact decide_eq_true fun hname => hdistinct.1 (List.mem_map.2 ⟨h, hh, hname⟩)
    · have hne : g.name ≠ f.name := fun h => hdistinct.1 (List.mem_map.2 ⟨f, hl, h.symm⟩)
      rw [List.filter_cons, if_pos (decide_eq_true hne)]
      exact ((ih hl hdistinct.2).cons g).trans (List.Perm.swap f g _)

theorem used_remove (hf : f ∈ d.files) : (d.remove f.name).used + f.length = d.used := by
  have hsum := ((perm_remove hf).map File.length).sum_eq
  rw [List.map_cons, List.sum_cons] at hsum
  unfold used
  omega

theorem count_remove (hf : f ∈ d.files) : (d.remove f.name).count + 1 = d.count :=
  ((perm_remove hf).length_eq).symm

theorem used_put : (d.put f).used = (d.remove f.name).used + f.length := by
  unfold used put
  rw [List.map_append, List.sum_append, List.map_singleton, List.sum_singleton]

theorem count_put : (d.put f).count = (d.remove f.name).count + 1 := by
  unfold count put
  rw [List.length_append, List.length_singleton]

theorem remove_of_find (h : d.find n = none) : d.remove n = d := by
  have hall : d.files.filter (fun f => f.name ≠ n) = d.files := by
    rw [List.filter_eq_self]
    intro f hf
    exact decide_eq_true fun hname =>
      find_eq_none.1 h (List.mem_map.2 ⟨f, hf, hname⟩)
  obtain ⟨files, distinct⟩ := d
  unfold remove keep
  congr

@[simp] theorem without_nil : d.without [] = d := by
  obtain ⟨files, distinct⟩ := d
  unfold without keep
  congr
  exact List.filter_eq_self.2 fun _ _ => decide_eq_true fun _ h => by cases h

theorem without_cons : d.without (id :: ids) = (d.remove (.done id)).without ids := by
  unfold without remove keep
  congr 1
  rw [List.filter_filter]
  congr 1
  funext f
  simp [Bool.and_comm]

theorem find_remove {m : Name} (hne : n ≠ m) : (d.remove m).find n = d.find n := by
  cases h : d.find n with
  | some f =>
    obtain ⟨hf, rfl⟩ := find_eq_some.1 h
    exact find_eq_some.2 ⟨List.mem_filter.2 ⟨hf, decide_eq_true hne⟩, rfl⟩
  | none =>
    rw [find_eq_none] at h ⊢
    exact fun hn => h ((List.filter_sublist.map File.name).subset hn)

/-- The length of an upload in its place. -/
def lengthOf (d : Dir) (id : UploadId) : Nat := ((d.find (.done id)).map File.length).getD 0

theorem done_eq (d : Dir) : d.done = d.names.filterMap Name.inPlace := by
  unfold done names
  rw [List.filterMap_map]
  rfl

theorem mem_done : id ∈ d.done ↔ .done id ∈ d.names := by
  rw [done_eq, List.mem_filterMap]
  constructor
  · rintro ⟨n, hn, h⟩
    cases n with
    | done j => rwa [← Option.some.inj h]
    | part j => cases h
  · exact fun h => ⟨.done id, h, rfl⟩

theorem nodup_done (d : Dir) : d.done.Nodup := by
  rw [done_eq]
  refine d.distinct.filterMap fun n m id hn hm => ?_
  cases n with
  | done i =>
    cases m with
    | done j => rw [Option.some.inj hn, Option.some.inj hm]
    | part j => cases hm
  | part i => cases hn

theorem find_done (h : id ∈ d.done) : ∃ f, d.find (.done id) = some f := by
  cases hf : d.find (.done id) with
  | some f => exact ⟨f, rfl⟩
  | none => exact absurd (mem_done.1 h) (find_eq_none.1 hf)

/-- Every file is an upload in its place or in flight. -/
theorem count_eq (d : Dir) : d.count = d.done.length + (d.files.filter File.inFlight).length := by
  unfold count done
  induction d.files with
  | nil => rfl
  | cons f files ih =>
    cases h : f.done with
    | some id =>
      have hflight : ¬ f.inFlight = true := by
        rw [File.inFlight, h]
        exact Bool.false_ne_true
      rw [List.length_cons, List.filterMap_cons_some h, List.filter_cons_of_neg hflight,
        List.length_cons, ih, Nat.add_right_comm]
    | none =>
      have hflight : f.inFlight = true := by
        rw [File.inFlight, h]
        rfl
      rw [List.length_cons, List.filterMap_cons_none h, List.filter_cons_of_pos hflight,
        List.length_cons, ih, Nat.add_assoc]

/-- Uploads that leave take what they hold with them, and nothing else. -/
theorem used_without (hnodup : ids.Nodup) (hids : ∀ id ∈ ids, id ∈ d.done) :
    (d.without ids).used + (ids.map d.lengthOf).sum = d.used ∧
      (d.without ids).count + ids.length = d.count := by
  induction ids generalizing d with
  | nil => simp
  | cons id ids ih =>
    obtain ⟨hid, hnodup⟩ := List.nodup_cons.1 hnodup
    obtain ⟨f, hf⟩ := find_done (hids id List.mem_cons_self)
    obtain ⟨hmem, hname⟩ := find_eq_some.1 hf
    have hlength : d.lengthOf id = f.length := by rw [lengthOf, hf]; rfl
    have hothers : ∀ j ∈ ids, (d.remove (.done id)).find (.done j) = d.find (.done j) := by
      intro j hj
      refine find_remove fun h => hid ?_
      rwa [← Name.done.inj h]
    have hrest : ids.map (d.remove (.done id)).lengthOf = ids.map d.lengthOf :=
      List.map_congr_left fun j hj => by rw [lengthOf, hothers j hj, lengthOf]
    have hdone : ∀ j ∈ ids, j ∈ (d.remove (.done id)).done := by
      intro j hj
      have hj' := mem_done.1 (hids j (List.mem_cons_of_mem _ hj))
      rw [mem_done]
      by_contra hno
      rw [← find_eq_none, hothers j hj, find_eq_none] at hno
      exact hno hj'
    obtain ⟨hused, hcount⟩ := ih hnodup hdone
    have hused' := used_remove hmem
    have hcount' := count_remove hmem
    rw [hname] at hused' hcount'
    rw [without_cons, List.map_cons, List.sum_cons, List.length_cons, hlength]
    rw [hrest] at hused
    omega

/-- Without all of them no upload lies in its place. -/
theorem done_without (h : ∀ id ∈ d.done, id ∈ ids) : (d.without ids).done = [] := by
  rw [List.eq_nil_iff_forall_not_mem]
  intro id hid
  obtain ⟨f, hf, hname⟩ := List.mem_map.1 (mem_done.1 hid)
  obtain ⟨hmem, hkept⟩ := List.mem_filter.1 hf
  have hin : id ∈ d.done := mem_done.2 (List.mem_map.2 ⟨f, hmem, hname⟩)
  exact of_decide_eq_true hkept id (h id hin) hname

end Dir

end Huliho.Uploads
