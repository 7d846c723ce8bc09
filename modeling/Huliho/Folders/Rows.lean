import Huliho.Folders.Checks
import Huliho.Lib.Loops

/-!
# The rows through a check

Only a create that passed adds a row, and the creates of a call come before its other objects: from
the first update on every object is checked against the rows the call ends with
(`rows_of_split`). The creates come in some order of their own, each of them once
(`creationOrder_perm`).
-/

namespace Huliho.Folders

/-- Rows kept under their ids. -/
def Keyed (rows : Record MailboxId MailboxRow) : Prop :=
  ∀ id row, rows.get id = some row → row.id = id

theorem Keyed.put {rows : Record MailboxId MailboxRow} {row : MailboxRow} (h : Keyed rows) :
    Keyed (rows.put row.id row) := by
  intro id found hfound
  rw [Record.get_put] at hfound
  split at hfound
  · rename_i hid
    rw [← Option.some.inj hfound, hid]
  · exact h id found hfound

theorem MailboxSnapshot.table_keyed (snapshot : MailboxSnapshot) : Keyed snapshot.table := by
  refine foldl_keeps (P := Keyed) (fun id row h => ?_) fun row _ rows h => h.put
  exact absurd (Record.get_eq_some.1 h) Table.not_mem_empty

/-- A value of keyed rows stands under its id. -/
theorem Keyed.get_of_mem {rows : Record MailboxId MailboxRow} (h : Keyed rows) {row : MailboxRow}
    (hrow : row ∈ rows.values) : rows.get row.id = some row := by
  obtain ⟨⟨id, found⟩, hmem, rfl⟩ := List.mem_map.1 hrow
  have hget : rows.get id = some found := Record.get_eq_some.2 hmem
  rw [h id found hget, hget]

theorem mem_values {rows : Record MailboxId MailboxRow} {id : MailboxId} {row : MailboxRow}
    (h : rows.get id = some row) : row ∈ rows.values :=
  List.mem_map.2 ⟨(id, row), Record.get_eq_some.1 h, rfl⟩

/-! ## What a check does to the rows -/

/-- Whether the object is a create. -/
def Object.isCreate : Object → Bool
  | .create .. => true
  | _ => false

/-- The creates stand before every other object. -/
def CreatesFirst (objects : List Object) : Prop :=
  ∃ creates others, objects = creates ++ others ∧ (∀ object ∈ creates, object.isCreate) ∧
    ∀ object ∈ others, object.isCreate = false

theorem CreatesFirst.pairwise {objects : List Object} (h : CreatesFirst objects) :
    objects.Pairwise fun a b => b.isCreate → a.isCreate := by
  obtain ⟨creates, others, rfl, hcreates, hothers⟩ := h
  have hlast : ∀ a b, b ∈ others → b.isCreate → Object.isCreate a := by
    intro a b hb hcreate
    rw [hothers b hb] at hcreate
    cases hcreate
  refine List.pairwise_append.2 ⟨?_, ?_, fun a _ b hb => hlast a b hb⟩
  · exact List.pairwise_of_forall_mem_list fun a ha b _ _ => hcreates a ha
  · exact List.pairwise_of_forall_mem_list fun a _ b hb => hlast a b hb

namespace Planning

variable {setting : Setting} {planning next : Planning} {object : Object} {objects : List Object}

/-- A check that adds a row is a create that passed. -/
theorem check_rows {answer : Except Refusal Step}
    (h : planning.check setting object = (next, answer)) : next.rows = planning.rows ∨
    ∃ index id create under leaf, object = .create index id create ∧
      answer = .ok (.create index id ⟨create.name, leaf, under⟩ create.role
        (create.subscribed.getD true)) ∧
      next.rows = planning.rows.put id (madeRow id ⟨create.name, leaf, under⟩ create.role ""
        (create.subscribed.getD true) setting.snapshot.gmail) := by
  cases answer with
  | error refusal =>
    obtain ⟨names, rfl, -⟩ := check_refused h
    exact .inl rfl
  | ok step =>
    cases object with
    | create index id create =>
      obtain ⟨under, leaf, -, -, -, rfl, -, -, hrows, -, -⟩ := create_ok h
      exact .inr ⟨index, id, create, under, leaf, rfl, rfl, hrows⟩
    | update index update =>
      obtain ⟨_, _, -, -, -, hrename, -⟩ := update_ok h
      rcases rename_ok hrename with ⟨-, rfl⟩ | ⟨-, -, -, -, -, -, -, -, -, hrows, -, -⟩
      · exact .inl rfl
      · exact .inl hrows
    | destroy index id removeEmails =>
      obtain ⟨_, -, -, -, rfl, -⟩ := destroy_ok h
      exact .inl leaveParent_rows

theorem take_rows (setting : Setting) (planning : Planning) (object : Object) : (planning.take setting object).rows = planning.rows ∨
    ∃ index id create under leaf next, object = .create index id create ∧
      planning.check setting object = (next, .ok (.create index id ⟨create.name, leaf, under⟩
        create.role (create.subscribed.getD true))) ∧
      (planning.take setting object).rows = planning.rows.put id
        (madeRow id ⟨create.name, leaf, under⟩ create.role "" (create.subscribed.getD true)
          setting.snapshot.gmail) := by
  cases hcheck : planning.check setting object with
  | mk next answer =>
    have htake : (planning.take setting object).rows = next.rows := by
      cases answer with
      | error refusal => rw [take_refused hcheck]
      | ok step => rw [take_ok hcheck]
    rcases check_rows hcheck with hsame | ⟨index, id, create, under, leaf, rfl, rfl, hrows⟩
    · exact .inl (htake.trans hsame)
    · exact .inr ⟨index, id, create, under, leaf, next, rfl, rfl, htake.trans hrows⟩

theorem take_keyed (h : Keyed planning.rows) : Keyed (planning.take setting object).rows := by
  rcases take_rows setting planning object with
    hsame | ⟨index, id, create, under, leaf, -, -, -, hrows⟩
  · rwa [hsame]
  · rw [hrows]
    have hkeyed : Keyed (planning.rows.put (madeRow id ⟨create.name, leaf, under⟩ create.role ""
      (create.subscribed.getD true) setting.snapshot.gmail).id _) := h.put
    exact hkeyed

theorem run_keyed (h : Keyed planning.rows) (objects : List Object) :
    Keyed (planning.run setting objects).rows :=
  foldl_keeps (P := fun found : Planning => Keyed found.rows) h fun _ _ _ => take_keyed

theorem take_rows_of_not_create (h : object.isCreate = false) :
    (planning.take setting object).rows = planning.rows := by
  rcases take_rows setting planning object with
    hsame | ⟨index, id, create, under, leaf, -, rfl, -, -⟩
  · exact hsame
  · cases h

theorem run_rows (h : ∀ object ∈ objects, object.isCreate = false) :
    (planning.run setting objects).rows = planning.rows :=
  foldl_keeps (P := fun found : Planning => found.rows = planning.rows) rfl fun object hmem _ hfound =>
    (take_rows_of_not_create (h object hmem)).trans hfound

/-- **An object that is no create is checked against the rows the call ends with.** -/
theorem rows_of_split {before after : List Object}
    (hfirst : CreatesFirst (before ++ object :: after)) (h : object.isCreate = false) :
    (planning.run setting (before ++ object :: after)).rows =
      (planning.run setting before).rows := by
  rw [run_append, run_cons]
  have hafter := (List.pairwise_cons.1 (List.pairwise_append.1 hfirst.pairwise).2.1).1
  refine (run_rows fun other hother => ?_).trans (take_rows_of_not_create h)
  by_contra hcreate
  rw [hafter other hother (Bool.not_eq_false _ ▸ hcreate)] at h
  cases h

end Planning

/-! ## The order of the objects -/

section Order

variable {creates : List Create}

theorem placePass_perm {left : List Nat} (done : List String × List Nat)
    (h : ∀ index ∈ left, index < creates.length) :
    ((placePass creates left done).1.2 ++ (placePass creates left done).2).Perm
      (done.2 ++ left) := by
  induction left generalizing done with
  | nil => exact List.Perm.refl _
  | cons index left ih =>
    have hleft : ∀ other ∈ left, other < creates.length :=
      fun other hother => h other (List.mem_cons_of_mem _ hother)
    obtain ⟨placed, order⟩ := done
    have hcreate := List.getElem?_eq_getElem (h index List.mem_cons_self)
    simp only [placePass, hcreate]
    split
    · exact List.perm_middle.trans (((ih _ hleft).cons index).trans List.perm_middle.symm)
    · refine (ih _ hleft).trans ?_
      rw [List.append_assoc]
      rfl

theorem placePass_left {left : List Nat} {done : List String × List Nat} :
    (placePass creates left done).2.Sublist left := by
  induction left generalizing done with
  | nil => exact List.Sublist.refl _
  | cons index left ih =>
    obtain ⟨placed, order⟩ := done
    simp only [placePass]
    split
    · exact ih.cons index
    · split
      · exact ih.cons_cons index
      · exact ih.cons index

theorem placeAll_perm {fuel : Nat} {left : List Nat} {done : List String × List Nat}
    (h : ∀ index ∈ left, index < creates.length) :
    (placeAll creates fuel left done).Perm (done.2 ++ left) := by
  induction fuel generalizing left done with
  | zero => exact List.Perm.refl _
  | succ fuel ih =>
    have hpass := placePass_perm done h
    simp only [placeAll]
    split
    · exact hpass
    · exact (ih fun _ hindex => h _ (placePass_left.subset hindex)).trans hpass

/-- **Every create is placed, once.** -/
theorem creationOrder_perm : (creationOrder creates).Perm (List.range creates.length) :=
  (placeAll_perm fun _ hindex => List.mem_range.1 hindex).trans
    (List.Perm.of_eq (List.nil_append _))

end Order

section Objects

variable {generated : String → MailboxId} {ask : Ask}

/-- The objects of a call are its creates and then others. -/
theorem objectsOf_createsFirst : CreatesFirst (objectsOf generated ask) := by
  refine ⟨_, _, List.append_assoc _ _ _, fun object hobject => ?_, fun object hobject => ?_⟩
  · obtain ⟨_, -, hcreate⟩ := List.mem_filterMap.1 hobject
    obtain ⟨create, -, rfl⟩ := Option.map_eq_some_iff.1 hcreate
    rfl
  rcases List.mem_append.1 hobject with hin | hin
  · obtain ⟨entry, -, rfl⟩ := List.mem_map.1 hin
    rfl
  · obtain ⟨entry, -, rfl⟩ := List.mem_map.1 hin
    rfl

/-- Whether the object is a destroy. -/
def Object.isDestroy : Object → Bool
  | .destroy .. => true
  | _ => false

/-- The objects of a call are others and then its destroys. -/
theorem objectsOf_destroys (generated : String → MailboxId) (ask : Ask) : ∃ firsts lasts, objectsOf generated ask = firsts ++ lasts ∧
    (∀ object ∈ firsts, object.isDestroy = false) ∧ ∀ object ∈ lasts, object.isDestroy := by
  refine ⟨_, _, rfl, List.forall_mem_append.2 ⟨?_, ?_⟩, ?_⟩
  · intro object hobject
    obtain ⟨_, -, hcreate⟩ := List.mem_filterMap.1 hobject
    obtain ⟨create, -, rfl⟩ := Option.map_eq_some_iff.1 hcreate
    rfl
  · intro object hobject
    obtain ⟨entry, -, rfl⟩ := List.mem_map.1 hobject
    rfl
  · intro object hobject
    obtain ⟨entry, -, rfl⟩ := List.mem_map.1 hobject
    rfl

/-- Behind a destroy there are only destroys. -/
theorem objectsOf_destroysLast :
    (objectsOf generated ask).Pairwise fun a b => a.isDestroy → b.isDestroy := by
  obtain ⟨firsts, lasts, hobjects, hfirsts, hlasts⟩ := objectsOf_destroys generated ask
  rw [hobjects]
  refine List.pairwise_append.2 ⟨?_, ?_, fun a ha b hb _ => hlasts b hb⟩
  · refine List.pairwise_of_forall_mem_list fun a ha b _ h => ?_
    rw [hfirsts a ha] at h
    cases h
  · exact List.pairwise_of_forall_mem_list fun a _ b hb _ => hlasts b hb

/-- The id a create takes. -/
def Object.madeId : Object → Option MailboxId
  | .create _ id _ => some id
  | _ => none

/-- Every create takes an id of its own, where each creation id has one. -/
theorem objectsOf_made_nodup (hcreations : (ask.creates.map Create.creationId).Nodup)
    (hapart : ∀ a ∈ ask.creates, ∀ b ∈ ask.creates,
      generated a.creationId = generated b.creationId → a.creationId = b.creationId) :
    ((objectsOf generated ask).filterMap Object.madeId).Nodup := by
  rw [objectsOf, List.filterMap_append, List.filterMap_append]
  have hupdates : (ask.updates.zipIdx.map fun entry =>
      Object.update (ask.creates.length + entry.2) entry.1).filterMap Object.madeId = [] := by
    simp [List.filterMap_eq_nil_iff, Object.madeId]
  have hdestroys : (ask.destroys.zipIdx.map fun entry => Object.destroy (ask.creates.length +
      ask.updates.length + entry.2) entry.1 ask.removeEmails).filterMap Object.madeId = [] := by
    simp [List.filterMap_eq_nil_iff, Object.madeId]
  rw [hupdates, hdestroys, List.append_nil, List.append_nil, List.filterMap_filterMap]
  refine List.Nodup.filterMap (fun i j id hi hj => ?_)
    (creationOrder_perm.nodup_iff.2 List.nodup_range)
  obtain ⟨object, hobject, hid⟩ := Option.bind_eq_some_iff.1 hi
  obtain ⟨other, hother, hid'⟩ := Option.bind_eq_some_iff.1 hj
  obtain ⟨a, ha, rfl⟩ := Option.map_eq_some_iff.1 hobject
  obtain ⟨b, hb, rfl⟩ := Option.map_eq_some_iff.1 hother
  obtain ⟨hi', -⟩ := List.getElem?_eq_some_iff.1 ha
  have hsame : generated a.creationId = generated b.creationId :=
    Option.some.inj (hid.trans hid'.symm)
  have hcreation := hapart a (List.mem_of_getElem? ha) b (List.mem_of_getElem? hb) hsame
  refine (List.getElem?_inj (by simpa using hi') hcreations).1 ?_
  rw [List.getElem?_map, List.getElem?_map, ha, hb, Option.map_some, Option.map_some, hcreation]

end Objects

end Huliho.Folders
