import Huliho.Drafts.Create

/-!
# What a create says

The lists of a draft that was read keep their bounds (**`read_listed`**), so the sync, which cuts
its lists at the same bounds, cuts none of them.
-/

namespace Huliho.Drafts

open Session

variable {α β : Type} {value : Json} {draft : Draft}

/-- The address fields of an email. -/
def Personal.addressFields (personal : Personal) : List (Option (List Address)) :=
  [personal.from_, personal.sender, personal.replyTo, personal.to_, personal.cc, personal.bcc]

/-- The id fields a draft gives. -/
def Personal.idFields (personal : Personal) : List (Option (List Text)) :=
  [personal.inReplyTo, personal.references]

/-- Lists within what one field may hold. -/
structure Listed (personal : Personal) : Prop where
  addresses : ∀ field ∈ personal.addressFields, ∀ list, field = some list →
    list.length ≤ MAX_ADDRESSES
  ids : ∀ field ∈ personal.idFields, ∀ list, field = some list → list.length ≤ MAX_MESSAGE_IDS

theorem mapM_length {f : α → Option β} {list : List α} {found : List β}
    (h : list.mapM f = some found) : found.length = list.length := by
  induction list generalizing found with
  | nil =>
    rw [List.mapM_nil] at h
    cases h
    rfl
  | cons item list ih =>
    rw [List.mapM_cons] at h
    obtain ⟨first, -, h⟩ := Option.bind_eq_some_iff.1 h
    obtain ⟨rest, hrest, h⟩ := Option.bind_eq_some_iff.1 h
    cases h
    rw [List.length_cons, List.length_cons, ih hrest]

theorem addresses_length {list : List Address} (h : addresses value = some list) :
    list.length ≤ MAX_ADDRESSES := by
  obtain ⟨items, -, h⟩ := Option.bind_eq_some_iff.1 h
  split_ifs at h with hbound
  rw [mapM_length h]
  exact hbound

theorem ids_length {list : List Text} (h : ids value = some list) :
    list.length ≤ MAX_MESSAGE_IDS := by
  obtain ⟨items, -, h⟩ := Option.bind_eq_some_iff.1 h
  split_ifs at h with hbound
  rw [mapM_length h]
  exact hbound

namespace Reading

/-- What a property says is what some value was read as. -/
theorem exists_of_field {r : Reading} {object : List (String × Json)} {name : String}
    {read : Json → Option α} {found : α} (h : (r.field object name read).1 = some found) :
    ∃ value, read value = some found := by
  unfold field property at h
  cases hgiven : given object name with
  | none => rw [hgiven] at h; cases h
  | some value =>
    rw [hgiven] at h
    cases hread : read value with
    | none => simp [hread] at h
    | some found' => exact ⟨value, by simpa [hread] using h⟩

theorem personal_listed (r : Reading) (object : List (String × Json)) :
    Listed (r.personal object).1 := by
  have haddresses : ∀ {r : Reading} {name : String} {list : List Address},
      (r.field object name addresses).1 = some list → list.length ≤ MAX_ADDRESSES := by
    intro r name list h
    obtain ⟨value, hread⟩ := exists_of_field h
    exact addresses_length hread
  have hids : ∀ {r : Reading} {name : String} {list : List Text},
      (r.field object name ids).1 = some list → list.length ≤ MAX_MESSAGE_IDS := by
    intro r name list h
    obtain ⟨value, hread⟩ := exists_of_field h
    exact ids_length hread
  constructor
  · intro field hfield list hlist
    subst hlist
    simp only [Personal.addressFields, personal, List.mem_cons, List.not_mem_nil, or_false]
      at hfield
    rcases hfield with h | h | h | h | h | h
    all_goals exact haddresses h.symm
  · intro field hfield list hlist
    subst hlist
    simp only [Personal.idFields, personal, List.mem_cons, List.not_mem_nil, or_false] at hfield
    rcases hfield with h | h
    all_goals exact hids h.symm

end Reading

/-- **The lists of a draft that was read keep their bounds.** -/
theorem read_listed (h : read value = .ok draft) : Listed draft.personal := by
  unfold read at h
  cases hobject : value.asObject with
  | none => rw [hobject] at h; cases h
  | some object =>
    rw [hobject] at h
    dsimp only at h
    split at h
    · cases h
      exact Reading.personal_listed _ object
    · cases h

end Huliho.Drafts
