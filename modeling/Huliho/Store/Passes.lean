import Huliho.Store.Run

/-!
# What a pass plans

`planPass` in closed form: over a listing that names each mailbox once it always goes through, and
the mailboxes it changes are exactly those the rows on record say (`Touched`), each once. Both
follow from one fact about the rows it writes on the way: a row of the id of a name carries that
name (`PassRows`), so no `UPDATE` of a pass meets a constraint.
-/

namespace Huliho

variable {order : List MailboxId → List MailboxId} {mint : String → MailboxId} {before t : Tables}
  {found : List MailboxFacts}

/-! ## Ids and names -/

theorem existing_eq_some {name : String} {r : MailboxRecord} :
    existing t name = some r ↔ r ∈ t.mailboxes ∧ r.row.facts.imapName = name := by
  constructor
  · exact Table.mem_of_find?
  · rintro ⟨hr, rfl⟩
    exact Table.find?_eq_some hr rfl fun s hs h => MailboxRecord.eq_of_imapName hs hr h

theorem existing_eq_none {name : String} :
    existing t name = none ↔ ∀ r ∈ t.mailboxes, r.row.facts.imapName ≠ name := Table.find?_eq_none

theorem idOf_of_mem (mint : String → MailboxId) {r : MailboxRecord} (hr : r ∈ t.mailboxes) :
    idOf mint t r.row.facts.imapName = r.row.id := by
  rw [idOf, existing_eq_some.2 ⟨hr, rfl⟩]
  rfl

theorem idOf_of_none {name : String} (h : existing t name = none) : idOf mint t name = mint name := by
  rw [idOf, h]
  rfl

/-- **A name has one id and an id one name.** -/
theorem idOf_injective (hl : Write.Listing order mint found before) {a b : String}
    (h : idOf mint before a = idOf mint before b) : a = b := by
  cases ha : existing before a with
  | none =>
    rw [idOf_of_none ha] at h
    cases hb : existing before b with
    | none =>
      rw [idOf_of_none hb] at h
      exact hl.apart a b h
    | some s =>
      obtain ⟨hs, rfl⟩ := existing_eq_some.1 hb
      rw [idOf_of_mem mint hs] at h
      exact absurd h.symm (hl.ids a s hs)
  | some r =>
    obtain ⟨hr, rfl⟩ := existing_eq_some.1 ha
    rw [idOf_of_mem mint hr] at h
    cases hb : existing before b with
    | none =>
      rw [idOf_of_none hb] at h
      exact absurd h (hl.ids b r hr)
    | some s =>
      obtain ⟨hs, rfl⟩ := existing_eq_some.1 hb
      rw [idOf_of_mem mint hs] at h
      rw [MailboxRecord.eq_of_id hr hs h]

/-- The row on record under the id of a name carries the name. -/
theorem imapName_of_idOf (hl : Write.Listing order mint found before) {name : String}
    {r : MailboxRecord} (hr : r ∈ before.mailboxes) (h : r.row.id = idOf mint before name) :
    r.row.facts.imapName = name := by
  rw [← idOf_of_mem mint hr] at h
  exact idOf_injective hl h

theorem mem_foundNames {name : String} :
    name ∈ foundNames found ↔ ∃ facts ∈ found, facts.imapName = name := by
  simp [foundNames]

/-! ## The rows on the way -/

/-- The mailbox rows inside a pass: every row that was there is, with its letters, and the others
are new rows of the names already done. -/
structure PassRows (mint : String → MailboxId) (before : Tables) (names : List String)
    (t : Tables) : Prop where
  old : ∀ r ∈ before.mailboxes, ∃ r' ∈ t.mailboxes, r'.row.id = r.row.id ∧
    r'.row.facts.imapName = r.row.facts.imapName ∧ r'.rights = r.rights
  known : ∀ r' ∈ t.mailboxes,
    (∃ r ∈ before.mailboxes, r.row.id = r'.row.id ∧
      r.row.facts.imapName = r'.row.facts.imapName) ∨
    (r'.row.id = mint r'.row.facts.imapName ∧ r'.row.facts.imapName ∈ names ∧ r'.rights = none)

theorem PassRows.start : PassRows mint before [] before :=
  ⟨fun r hr => ⟨r, hr, rfl, rfl, rfl⟩, fun r hr => .inl ⟨r, hr, rfl, rfl⟩⟩

/-- A row of the id of a name carries the name. -/
theorem PassRows.imapName {names : List String} (h : PassRows mint before names t)
    (hl : Write.Listing order mint found before) {r : MailboxRecord} (hr : r ∈ t.mailboxes)
    {name : String} (hid : r.row.id = idOf mint before name) : r.row.facts.imapName = name := by
  rcases h.known r hr with ⟨r₀, hr₀, hid₀, hname⟩ | ⟨hmint, -, -⟩
  · rw [← hname]
    exact imapName_of_idOf hl hr₀ (hid₀.trans hid)
  · rw [hmint] at hid
    cases he : existing before name with
    | none =>
      rw [idOf_of_none he] at hid
      exact hl.apart _ _ hid
    | some s =>
      obtain ⟨hs, rfl⟩ := existing_eq_some.1 he
      rw [idOf_of_mem mint hs] at hid
      exact absurd hid.symm (hl.ids _ s hs)

/-- The letters of a name are those on record. -/
theorem PassRows.rights {names : List String} (h : PassRows mint before names t) (name : String) :
    (existing t name).bind MailboxRecord.rights =
      (existing before name).bind MailboxRecord.rights := by
  cases he : existing before name with
  | some r =>
    obtain ⟨hr, rfl⟩ := existing_eq_some.1 he
    obtain ⟨r', hr', -, hname, hrights⟩ := h.old r hr
    rw [existing_eq_some.2 ⟨hr', hname⟩]
    exact hrights
  | none =>
    cases he' : existing t name with
    | none => rfl
    | some r' =>
      obtain ⟨hr', rfl⟩ := existing_eq_some.1 he'
      rcases h.known r' hr' with ⟨r, hr, -, hname⟩ | ⟨-, -, hnone⟩
      · exact absurd hname (existing_eq_none.1 he r hr)
      · exact hnone

/-- The row wanted for the facts of a mailbox. -/
theorem wantedRow_names (facts : MailboxFacts) :
    (wantedRow mint before found facts).id = idOf mint before facts.imapName ∧
      (wantedRow mint before found facts).facts.imapName = facts.imapName := ⟨rfl, rfl⟩

/-- **An upsert of a pass goes through** and keeps the rows in order. -/
theorem PassRows.upsert {names : List String} (h : PassRows mint before names t)
    (hl : Write.Listing order mint found before) (row : MailboxRow)
    (hid : row.id = idOf mint before row.facts.imapName)
    (hnew : row.facts.imapName ∉ names) :
    ∃ t', upsert t row = .ok t' ∧ PassRows mint before (names ++ [row.facts.imapName]) t' := by
  set name := row.facts.imapName with hname
  set row' : MailboxRow := { row with facts.parentImapName := none } with hrow'
  have hmono : ∀ r : MailboxRecord, r.row.facts.imapName ∈ names →
      r.row.facts.imapName ∈ names ++ [name] := fun r hr => List.mem_append_left _ hr
  cases hf : t.mailboxes.find? fun r => r.row.id = row.id with
  | some r =>
    obtain ⟨hr, hrid⟩ := Table.mem_of_find? hf
    have hrname := h.imapName hl hr (hrid.trans hid)
    -- The row keeps its id and its name, so no two rows meet.
    have hkeeps : ∀ s ∈ t.mailboxes, (s.takes row').row.id = s.row.id ∧
        (s.takes row').row.facts.imapName = s.row.facts.imapName ∧
        (s.takes row').rights = s.rights := by
      intro s hs
      unfold MailboxRecord.takes
      split
      · rename_i hsid
        refine ⟨hsid.symm, ?_, rfl⟩
        rw [MailboxRecord.eq_of_id hs hr (hsid.trans hrid.symm), hrname]
      · exact ⟨rfl, rfl, rfl⟩
    obtain ⟨mailboxes, hu⟩ := Option.isSome_iff_exists.1 (Table.update?_isSome
      (t := t.mailboxes) (f := MailboxRecord.takes row') fun a ha b hb hab => by
        rw [MailboxRecord.Apart, (hkeeps a ha).1, (hkeeps b hb).1, (hkeeps a ha).2.1,
          (hkeeps b hb).2.1]
        exact hab)
    refine ⟨{ t with mailboxes }, ?_, ⟨fun s hs => ?_, fun s' hs' => ?_⟩⟩
    · simp only [Huliho.upsert, hf, Option.isSome_some, if_true]
      rw [← hrow', hu]
      rfl
    · obtain ⟨s', hs', h1, h2, h3⟩ := h.old s hs
      refine ⟨_, (Table.mem_update? hu).2 ⟨s', hs', rfl⟩, ?_, ?_, ?_⟩
      · exact (hkeeps s' hs').1.trans h1
      · exact (hkeeps s' hs').2.1.trans h2
      · exact (hkeeps s' hs').2.2.trans h3
    · obtain ⟨s, hs, rfl⟩ := (Table.mem_update? hu).1 hs'
      rw [(hkeeps s hs).1, (hkeeps s hs).2.1, (hkeeps s hs).2.2]
      exact (h.known s hs).imp_right fun hm => ⟨hm.1, hmono s hm.2.1, hm.2.2⟩
  | none =>
    have hfresh := Table.find?_eq_none.1 hf
    have hnone : existing before name = none := by
      cases he : existing before name with
      | none => rfl
      | some s =>
        obtain ⟨hs, hsname⟩ := existing_eq_some.1 he
        obtain ⟨s', hs', hsid, -⟩ := h.old s hs
        refine absurd ?_ (hfresh s' hs')
        rw [hsid, hid, ← hsname, idOf_of_mem mint hs]
    have hapart : ∀ s ∈ t.mailboxes, s.Apart ⟨row', none, none⟩ := by
      intro s hs
      refine ⟨hfresh s hs, fun hc => ?_⟩
      have hc : s.row.facts.imapName = name := hc
      rcases h.known s hs with ⟨s₀, hs₀, -, hsname⟩ | ⟨-, hin, -⟩
      · exact existing_eq_none.1 hnone s₀ hs₀ (hsname.trans hc)
      · exact hnew (hc ▸ hin)
    obtain ⟨mailboxes, hi⟩ := Option.isSome_iff_exists.1 (Table.insert?_isSome.2 hapart)
    refine ⟨{ t with mailboxes }, ?_, ⟨fun s hs => ?_, fun s' hs' => ?_⟩⟩
    · simp only [Huliho.upsert, hf, Option.isSome_none, Bool.false_eq_true, if_false]
      rw [← hrow', hi]
      rfl
    · obtain ⟨s', hs', hrest⟩ := h.old s hs
      exact ⟨s', (Table.mem_insert? hi).2 (.inl hs'), hrest⟩
    · rcases (Table.mem_insert? hi).1 hs' with hs' | rfl
      · exact (h.known s' hs').imp_right fun hm => ⟨hm.1, hmono s' hm.2.1, hm.2.2⟩
      · exact .inr ⟨hid.trans (idOf_of_none hnone), List.mem_append_right _ (by simp [hrow', hname]),
          rfl⟩

/-! ## The changes of a pass -/

/-- The mailboxes of a list of changes. -/
def ids (changes : List (MailboxId × ChangeKind)) : List MailboxId := changes.map Prod.fst

theorem mem_ids_addChange {changes : List (MailboxId × ChangeKind)} {id m : MailboxId}
    {k : ChangeKind} : m ∈ ids (addChange changes id k) ↔ m ∈ ids changes ∨ m = id := by
  unfold addChange
  split
  · rename_i hany
    obtain ⟨c, hc, hcid⟩ := List.any_eq_true.1 hany
    refine ⟨.inl, fun h => h.elim (fun h => h) ?_⟩
    rintro rfl
    exact List.mem_map.2 ⟨c, hc, by simpa using hcid⟩
  · simp [ids]

theorem nodup_ids_addChange {changes : List (MailboxId × ChangeKind)} {id : MailboxId}
    {k : ChangeKind} (h : (ids changes).Nodup) : (ids (addChange changes id k)).Nodup := by
  unfold addChange
  split
  · exact h
  · rename_i hany
    have hnot : id ∉ ids changes := fun hc => by
      obtain ⟨c, hcm, hcid⟩ := List.mem_map.1 hc
      exact hany (List.any_eq_true.2 ⟨c, hcm, by simpa using hcid⟩)
    rw [ids, List.map_append, List.nodup_append]
    refine ⟨h, by simp, ?_⟩
    rintro a ha b hb rfl
    simp only [List.map_cons, List.map_nil, List.mem_singleton] at hb
    exact hnot (hb ▸ ha)

/-- The facts of a mailbox say something new about it. -/
def Differs (mint : String → MailboxId) (before : Tables) (found : List MailboxFacts)
    (facts : MailboxFacts) : Prop :=
  ∀ r, existing before facts.imapName = some r → r.row ≠ wantedRow mint before found facts

/-- The listing names the folder under another UIDVALIDITY than the one on record. -/
def Renumbered (mint : String → MailboxId) (before : Tables) (found : List MailboxFacts)
    (folder : MailboxId) : Prop :=
  ∃ facts ∈ found, ∃ r, existing before facts.imapName = some r ∧ r.row.id = folder ∧
    WasRenumbered r.row (wantedRow mint before found facts)

/-- The letters of the name moved. -/
def LettersMoved (before : Tables) (letters : Letters) (name : String) : Prop :=
  (letters.bind fun read => read name) ≠ (existing before name).bind MailboxRecord.rights

/-- The mailboxes a pass changes: those it found new, different, with other letters or, with new
rights, at all — and those it did not find. -/
def Touched (mint : String → MailboxId) (before : Tables) (found : List MailboxFacts)
    (letters : Letters) (flipped : Bool) (m : MailboxId) : Prop :=
  (∃ facts ∈ found, idOf mint before facts.imapName = m ∧
    (Differs mint before found facts ∨ LettersMoved before letters facts.imapName ∨ flipped)) ∨
  ∃ r ∈ before.mailboxes, r.row.id = m ∧ r.row.facts.imapName ∉ foundNames found

/-- The loop over the listing, with `rest` still to come. -/
structure PassInv (mint : String → MailboxId) (before : Tables) (found : List MailboxFacts)
    (rest : List MailboxFacts) (p : Passing) : Prop where
  done : ∃ done, found = done ++ rest ∧
    PassRows mint before (done.map MailboxFacts.imapName) p.tables ∧
    (∀ m, m ∈ ids p.changes ↔ ∃ facts ∈ done, idOf mint before facts.imapName = m ∧
      Differs mint before found facts) ∧
    ∀ m, m ∈ p.renumbered ↔ Renumbered mint before found m ∧
      ∃ facts ∈ done, idOf mint before facts.imapName = m
  changes : (ids p.changes).Nodup
  renumbered : p.renumbered.Nodup

/-- **One mailbox of the listing.** -/
theorem PassInv.turn (hl : Write.Listing order mint found before) {facts : MailboxFacts}
    {rest : List MailboxFacts} {p : Passing} (h : PassInv mint before found (facts :: rest) p) :
    ∃ p', passFacts mint before found p facts = .ok p' ∧ PassInv mint before found rest p' := by
  obtain ⟨⟨done, hfound, hrows, hchanged, hrenumbered⟩, hnodup, hrn⟩ := h
  have hnew : facts.imapName ∉ done.map MailboxFacts.imapName := by
    have := hl.once
    rw [hfound, List.map_append, List.map_cons, List.nodup_append] at this
    exact fun hc => this.2.2 _ hc _ List.mem_cons_self rfl
  have hin : facts ∈ found := by
    rw [hfound]
    exact List.mem_append_right _ List.mem_cons_self
  have hfound' : found = (done ++ [facts]) ++ rest := by rw [hfound, List.append_assoc]; rfl
  have hmap : (done ++ [facts]).map MailboxFacts.imapName =
      done.map MailboxFacts.imapName ++ [facts.imapName] := by simp
  have hfresh : ∀ other ∈ done, idOf mint before other.imapName ≠ idOf mint before facts.imapName :=
    fun other ho hc => hnew (idOf_injective hl hc ▸ List.mem_map_of_mem ho)
  have hidnew : idOf mint before facts.imapName ∉ ids p.changes := fun hc => by
    obtain ⟨other, ho, hid, -⟩ := (hchanged _).1 hc
    exact hfresh other ho hid
  have hrnnew : idOf mint before facts.imapName ∉ p.renumbered := fun hc => by
    obtain ⟨-, other, ho, hid⟩ := (hrenumbered _).1 hc
    exact hfresh other ho hid
  obtain ⟨t', hup, hrows'⟩ := hrows.upsert hl (wantedRow mint before found facts) rfl hnew
  -- A changed row goes in with its change.
  have hsnoc : ∀ kind, Differs mint before found facts →
      (∀ m, m ∈ ids (p.changes ++ [(idOf mint before facts.imapName, kind)]) ↔
        ∃ other ∈ done ++ [facts], idOf mint before other.imapName = m ∧
          Differs mint before found other) ∧
      (ids (p.changes ++ [(idOf mint before facts.imapName, kind)])).Nodup := by
    intro kind hd
    constructor
    · intro m
      have hsplit : m ∈ ids (p.changes ++ [(idOf mint before facts.imapName, kind)]) ↔
          m ∈ ids p.changes ∨ m = idOf mint before facts.imapName := by simp [ids]
      rw [hsplit, hchanged]
      constructor
      · rintro (⟨other, ho, h⟩ | rfl)
        · exact ⟨other, List.mem_append_left _ ho, h⟩
        · exact ⟨facts, by simp, rfl, hd⟩
      · rintro ⟨other, ho, hid, hdo⟩
        rcases List.mem_append.1 ho with ho | ho
        · exact .inl ⟨other, ho, hid, hdo⟩
        · obtain rfl := List.mem_singleton.1 ho
          exact .inr hid.symm
    · rw [ids, List.map_append, List.nodup_append]
      refine ⟨hnodup, by simp, ?_⟩
      rintro a ha b hb rfl
      simp only [List.map_cons, List.map_nil, List.mem_singleton] at hb
      exact hidnew (hb ▸ ha)
  have hdone : ∀ m, ¬ (Renumbered mint before found m ∧ m = idOf mint before facts.imapName) →
      ((Renumbered mint before found m ∧ ∃ other ∈ done ++ [facts],
        idOf mint before other.imapName = m) ↔ m ∈ p.renumbered) := by
    intro m hm
    rw [hrenumbered]
    refine and_congr_right fun hr => ⟨?_, ?_⟩
    · rintro ⟨other, ho, hid⟩
      rcases List.mem_append.1 ho with ho | ho
      · exact ⟨other, ho, hid⟩
      · obtain rfl := List.mem_singleton.1 ho
        exact absurd ⟨hr, hid.symm⟩ hm
    · rintro ⟨other, ho, hid⟩
      exact ⟨other, List.mem_append_left _ ho, hid⟩
  -- The folder is renumbered exactly where its own facts say so.
  have hown : ∀ r, existing before facts.imapName = some r →
      (Renumbered mint before found (idOf mint before facts.imapName) ↔
        WasRenumbered r.row (wantedRow mint before found facts)) := by
    intro r hr
    obtain ⟨hmem, hname⟩ := existing_eq_some.1 hr
    have hrid : r.row.id = idOf mint before facts.imapName := by
      rw [← hname, idOf_of_mem mint hmem]
    constructor
    · rintro ⟨other, ho, s, hs, hsid, hwas⟩
      obtain ⟨hsm, hsname⟩ := existing_eq_some.1 hs
      obtain rfl := MailboxRecord.eq_of_id hsm hmem (hsid.trans hrid.symm)
      have : other = facts := List.inj_on_of_nodup_map hl.once ho hin (hsname.symm.trans hname)
      rw [← this]
      exact hwas
    · exact fun hwas => ⟨facts, hin, r, hr, hrid, hwas⟩
  unfold passFacts
  simp only
  cases he : existing before facts.imapName with
  | some current =>
    simp only
    by_cases hsame : current.row = wantedRow mint before found facts
    · rw [if_pos hsame]
      have hnd : ¬ Differs mint before found facts := fun hd => hd current he hsame
      have hno : ¬ Renumbered mint before found (idOf mint before facts.imapName) := by
        rw [hown current he, hsame]
        rintro ⟨-, -, hc⟩
        exact hc rfl
      refine ⟨p, rfl, ⟨done ++ [facts], hfound', ?_, fun m => ?_, fun m => ?_⟩, hnodup, hrn⟩
      · rw [hmap]
        exact ⟨hrows.old, fun r hr => (hrows.known r hr).imp_right
          fun hm => ⟨hm.1, List.mem_append_left _ hm.2.1, hm.2.2⟩⟩
      · rw [hchanged]
        constructor
        · rintro ⟨other, ho, h⟩
          exact ⟨other, List.mem_append_left _ ho, h⟩
        · rintro ⟨other, ho, hid, hd⟩
          rcases List.mem_append.1 ho with ho | ho
          · exact ⟨other, ho, hid, hd⟩
          · obtain rfl := List.mem_singleton.1 ho
            exact absurd hd hnd
      · exact (hdone m fun ⟨hr, hm⟩ => hno (hm ▸ hr)).symm
    · rw [if_neg hsame, hup]
      have hd : Differs mint before found facts := fun r hr => by
        rw [he] at hr
        obtain rfl := Option.some.inj hr
        exact hsame
      obtain ⟨hmem, hnd⟩ := hsnoc .updated hd
      refine ⟨_, rfl, ⟨done ++ [facts], hfound', by rw [hmap]; exact hrows', hmem, fun m => ?_⟩,
        hnd, ?_⟩
      · simp only
        split
        · rename_i hwas
          by_cases hm : m = idOf mint before facts.imapName
          · subst hm
            refine ⟨fun _ => ⟨(hown current he).2 hwas, facts, by simp, rfl⟩, fun _ => ?_⟩
            exact List.mem_append_right _ (List.mem_singleton.2 rfl)
          · rw [hdone m fun hc => hm hc.2, List.mem_append, List.mem_singleton]
            exact ⟨fun h => h.resolve_right hm, .inl⟩
        · rename_i hwas
          exact (hdone m fun ⟨hr, hm⟩ => hwas ((hown current he).1 (hm ▸ hr))).symm
      · simp only
        split
        · rw [List.nodup_append]
          refine ⟨hrn, by simp, ?_⟩
          rintro a ha b hb rfl
          obtain rfl := List.mem_singleton.1 hb
          exact hrnnew ha
        · exact hrn
  | none =>
    simp only [hup]
    have hd : Differs mint before found facts := fun r hr => by rw [he] at hr; cases hr
    obtain ⟨hmem, hnd⟩ := hsnoc .created hd
    refine ⟨_, rfl, ⟨done ++ [facts], hfound', by rw [hmap]; exact hrows', hmem, fun m => ?_⟩,
      hnd, hrn⟩
    refine (hdone m ?_).symm
    rintro ⟨⟨other, -, r, hr, hrid, -⟩, rfl⟩
    obtain ⟨hmem, hname⟩ := existing_eq_some.1 hr
    have := imapName_of_idOf hl hmem hrid
    rw [existing_eq_none] at he
    exact he r hmem this

/-- The loop over the letters, with `rest` still to come. -/
structure LetterInv (mint : String → MailboxId) (before : Tables) (found : List MailboxFacts)
    (letters : Letters) (start : Passing) (rest : List String) (p : Passing) : Prop where
  names : ∃ done, foundNames found = done ++ rest ∧
    ∀ m, m ∈ ids p.changes ↔ m ∈ ids start.changes ∨
      ∃ name ∈ done, idOf mint before name = m ∧ LettersMoved before letters name
  rights : ∀ name ∈ rest, (existing p.tables name).bind MailboxRecord.rights =
    (existing before name).bind MailboxRecord.rights
  rows : ∀ r ∈ p.tables.mailboxes, ∀ name, r.row.id = idOf mint before name →
    r.row.facts.imapName = name
  changes : (ids p.changes).Nodup
  renumbered : p.renumbered = start.renumbered

/-- The letters of one name move the row of its id alone. -/
theorem existing_lettered {id : MailboxId} {wanted : Option String} {name : String}
    (h : ∀ r ∈ t.mailboxes, r.row.id = id → r.row.facts.imapName ≠ name) :
    (existing
      { t with
        mailboxes := t.mailboxes.revise (MailboxRecord.onId id (MailboxRecord.lettered wanted))
          (MailboxRecord.lettered_apart _ _) } name).bind MailboxRecord.rights =
      (existing t name).bind MailboxRecord.rights := by
  have hname : ∀ r : MailboxRecord,
      (r.onId id (MailboxRecord.lettered wanted)).row = r.row := fun r => by
    unfold MailboxRecord.onId
    split <;> rfl
  cases he : existing t name with
  | none =>
    rw [existing_eq_none.2]
    rintro r hr
    obtain ⟨s, hs, rfl⟩ := (Table.mem_revise (MailboxRecord.lettered_apart id wanted)).1 hr
    rw [hname]
    exact existing_eq_none.1 he s hs
  | some r =>
    obtain ⟨hr, hrname⟩ := existing_eq_some.1 he
    have hid : r.row.id ≠ id := fun hc => h r hr hc hrname
    have hkept : r.onId id (MailboxRecord.lettered wanted) = r := if_neg hid
    rw [existing_eq_some.2 ⟨(Table.mem_revise (MailboxRecord.lettered_apart id wanted)).2
      ⟨r, hr, hkept⟩, hrname⟩]

theorem LetterInv.turn {letters : Letters} {start p : Passing} {name : String} {rest : List String}
    (h : LetterInv mint before found letters start (name :: rest) p) :
    LetterInv mint before found letters start rest
      { p with
        tables := (applyRights p.tables name (idOf mint before name) letters).1
        changes := if (applyRights p.tables name (idOf mint before name) letters).2 then
          addChange p.changes (idOf mint before name) .updated else p.changes } := by
  obtain ⟨⟨done, hdone, hchanged⟩, hrights, hrows, hnodup, hrn⟩ := h
  have hnames : (name :: rest).Nodup := by
    have := List.nodup_dedup (found.map MailboxFacts.imapName)
    rw [show (found.map MailboxFacts.imapName).dedup = done ++ (name :: rest) from hdone] at this
    exact this.of_append_right
  have hdone' : foundNames found = (done ++ [name]) ++ rest := by
    rw [hdone, List.append_assoc]
    rfl
  have hsplit : ∀ m, (∃ other ∈ done ++ [name], idOf mint before other = m ∧
      LettersMoved before letters other) ↔
      (∃ other ∈ done, idOf mint before other = m ∧ LettersMoved before letters other) ∨
        (LettersMoved before letters name ∧ m = idOf mint before name) := by
    intro m
    constructor
    · rintro ⟨other, ho, hid, hmoved⟩
      rcases List.mem_append.1 ho with ho | ho
      · exact .inl ⟨other, ho, hid, hmoved⟩
      · obtain rfl := List.mem_singleton.1 ho
        exact .inr ⟨hmoved, hid.symm⟩
    · rintro (⟨other, ho, h⟩ | ⟨hmoved, rfl⟩)
      · exact ⟨other, List.mem_append_left _ ho, h⟩
      · exact ⟨name, by simp, rfl, hmoved⟩
  have hheld := hrights name List.mem_cons_self
  unfold applyRights
  simp only
  split
  · rename_i hsame
    have hno : ¬ LettersMoved before letters name := fun hc => hc (hsame.trans hheld)
    refine ⟨⟨done ++ [name], hdone', fun m => ?_⟩,
      fun other ho => hrights other (List.mem_cons_of_mem _ ho), hrows, hnodup, hrn⟩
    rw [hsplit]
    simp only [Bool.false_eq_true, if_false, hchanged, hno, false_and, or_false]
  · rename_i hne
    have hmoved : LettersMoved before letters name := fun hc => hne (hc.trans hheld.symm)
    refine ⟨⟨done ++ [name], hdone', fun m => ?_⟩, fun other ho => ?_, fun r hr other hid => ?_,
      nodup_ids_addChange hnodup, hrn⟩
    · rw [hsplit]
      simp only [if_true, mem_ids_addChange, hchanged, hmoved, true_and, or_assoc]
    · rw [existing_lettered]
      · exact hrights other (List.mem_cons_of_mem _ ho)
      · intro r hr hid hc
        have : name = other := (hrows r hr name hid).symm.trans hc
        exact (List.nodup_cons.1 hnames).1 (this ▸ ho)
    · obtain ⟨s, hs, rfl⟩ := (Table.mem_revise (MailboxRecord.lettered_apart _ _)).1 hr
      have hrow : (s.onId (idOf mint before name) (MailboxRecord.lettered
          (letters.bind fun read => read name))).row = s.row := by
        unfold MailboxRecord.onId
        split <;> rfl
      rw [hrow] at hid ⊢
      exact hrows s hs other hid

theorem mem_passVanished (gone : List MailboxId) :
    ∀ (p : Passing), ids (passVanished gone p).changes = ids p.changes ++ gone ∧
      (passVanished gone p).renumbered = p.renumbered := by
  induction gone with
  | nil => intro p; exact ⟨by simp [passVanished], rfl⟩
  | cons id gone ih =>
    intro p
    obtain ⟨h1, h2⟩ := ih { p with
      tables := { p.tables with mailboxes := p.tables.mailboxes.delete fun r => r.row.id = id }
      changes := p.changes ++ [(id, .destroyed)] }
    refine ⟨?_, h2⟩
    rw [passVanished, List.foldl_cons, ← passVanished, h1]
    simp [ids]

theorem mem_vanished (hl : Write.Listing order mint found before) {m : MailboxId} :
    m ∈ vanished order before found ↔
      ∃ r ∈ before.mailboxes, r.row.id = m ∧ r.row.facts.imapName ∉ foundNames found := by
  rw [vanished, (hl.order _).mem_iff]
  simp only [List.mem_map, List.mem_filter, decide_eq_true_eq, Table.mem_def]
  exact exists_congr fun r => by rw [and_assoc, and_congr_right_iff]; exact fun _ => and_comm

theorem nodup_vanished (hl : Write.Listing order mint found before) :
    (vanished order before found).Nodup := by
  rw [vanished, (hl.order _).nodup_iff, List.Nodup, List.pairwise_map]
  exact (before.mailboxes.apart.filter _).imp fun h => h.1

/-- A found mailbox did not vanish. -/
theorem not_vanished (hl : Write.Listing order mint found before) {name : String}
    (hname : name ∈ foundNames found) : idOf mint before name ∉ vanished order before found := by
  intro hc
  obtain ⟨r, hr, hid, hnot⟩ := (mem_vanished hl).1 hc
  exact hnot (imapName_of_idOf hl hr hid ▸ hname)

/-- **A pass plans what the rows on record say.** -/
theorem planPass_spec (hl : Write.Listing order mint found before) (letters : Letters)
    (flipped : Bool) : ∃ p, planPass order mint before found letters flipped = .ok p ∧
      (∀ m, m ∈ ids p.changes ↔ Touched mint before found letters flipped m) ∧
      (ids p.changes).Nodup ∧ (∀ m, m ∈ p.renumbered ↔ Renumbered mint before found m) ∧
      p.renumbered.Nodup := by
  obtain ⟨p₁, hloop, ⟨done, hfound, hrows₁, hchanged₁, hrn₁⟩, hnodup₁, hrnnodup⟩ :=
    foldlM_total (P := PassInv mint before found) (fun facts rest p h => h.turn hl) (l := found)
      (b := ⟨before, [], []⟩)
      ⟨⟨[], rfl, PassRows.start, by simp [ids], by simp⟩, List.nodup_nil, List.nodup_nil⟩
  obtain rfl : found = done := by simpa using hfound
  have hletters : LetterInv mint before found letters p₁ []
      (passRights mint before found letters p₁) :=
    foldl_rest (P := LetterInv mint before found letters p₁)
      (fun name rest p h => h.turn) (l := foundNames found) (b := p₁)
      ⟨⟨[], rfl, by simp⟩, fun name _ => hrows₁.rights name,
        fun r hr name hid => hrows₁.imapName hl hr hid, hnodup₁, rfl⟩
  obtain ⟨⟨names, hnames, hchanged₂⟩, -, -, hnodup₂, hrn₂⟩ := hletters
  obtain rfl : foundNames found = names := by simpa using hnames
  obtain ⟨hids₃, hrn₃⟩ := mem_passVanished (vanished order before found)
    (passRights mint before found letters p₁)
  -- What the pass changed up to the flip, each once.
  have hin₂ : ∀ m, m ∈ ids (passRights mint before found letters p₁).changes →
      ∃ name ∈ foundNames found, idOf mint before name = m := fun m hm => by
    rcases (hchanged₂ m).1 hm with hm | ⟨name, hname, hid, -⟩
    · obtain ⟨facts, hf, hid, -⟩ := (hchanged₁ m).1 hm
      exact ⟨_, mem_foundNames.2 ⟨facts, hf, rfl⟩, hid⟩
    · exact ⟨name, hname, hid⟩
  have hnodup₃ : (ids (passVanished (vanished order before found)
      (passRights mint before found letters p₁)).changes).Nodup := by
    rw [hids₃, List.nodup_append]
    refine ⟨hnodup₂, nodup_vanished hl, ?_⟩
    rintro a ha b hb rfl
    obtain ⟨name, hname, rfl⟩ := hin₂ a ha
    exact not_vanished hl hname hb
  have hflip : ∀ (names : List String) (changes : List (MailboxId × ChangeKind)),
      (∀ m, m ∈ ids (names.foldl (fun changes name => addChange changes (idOf mint before name)
        .updated) changes) ↔ m ∈ ids changes ∨ ∃ name ∈ names, idOf mint before name = m) ∧
      ((ids changes).Nodup → (ids (names.foldl (fun changes name =>
        addChange changes (idOf mint before name) .updated) changes)).Nodup) := by
    intro names
    induction names with
    | nil => exact fun changes => ⟨by simp, fun h => h⟩
    | cons name names ih =>
      intro changes
      obtain ⟨h1, h2⟩ := ih (addChange changes (idOf mint before name) .updated)
      refine ⟨fun m => ?_, fun h => h2 (nodup_ids_addChange h)⟩
      rw [List.foldl_cons, h1, mem_ids_addChange, List.exists_mem_cons_iff, or_assoc,
        eq_comm (a := m)]
  have htouched : ∀ m, Touched mint before found letters flipped m ↔
      m ∈ ids (passVanished (vanished order before found)
        (passRights mint before found letters p₁)).changes ∨
      (flipped ∧ ∃ name ∈ foundNames found, idOf mint before name = m) := by
    intro m
    rw [hids₃, List.mem_append, mem_vanished hl, hchanged₂, hchanged₁, Touched]
    constructor
    · rintro (⟨facts, hf, hid, hd | hd | hd⟩ | hv)
      · exact .inl (.inl (.inl ⟨facts, hf, hid, hd⟩))
      · exact .inl (.inl (.inr ⟨_, mem_foundNames.2 ⟨facts, hf, rfl⟩, hid, hd⟩))
      · exact .inr ⟨hd, _, mem_foundNames.2 ⟨facts, hf, rfl⟩, hid⟩
      · exact .inl (.inr hv)
    · rintro (((⟨facts, hf, hid, hd⟩ | ⟨name, hname, hid, hd⟩) | hv) | ⟨hd, name, hname, hid⟩)
      · exact .inl ⟨facts, hf, hid, .inl hd⟩
      · obtain ⟨facts, hf, rfl⟩ := mem_foundNames.1 hname
        exact .inl ⟨facts, hf, hid, .inr (.inl hd)⟩
      · exact .inr hv
      · obtain ⟨facts, hf, rfl⟩ := mem_foundNames.1 hname
        exact .inl ⟨facts, hf, hid, .inr (.inr hd)⟩
  have hrenumbered : ∀ m, m ∈ (passVanished (vanished order before found)
      (passRights mint before found letters p₁)).renumbered ↔ Renumbered mint before found m := by
    intro m
    rw [hrn₃, hrn₂, hrn₁]
    refine and_iff_left_of_imp ?_
    rintro ⟨facts, hf, r, hr, hid, -⟩
    obtain ⟨hmem, hname⟩ := existing_eq_some.1 hr
    exact ⟨facts, hf, by rw [← hname, idOf_of_mem mint hmem, hid]⟩
  refine ⟨passFlipped mint before found flipped (passVanished (vanished order before found)
    (passRights mint before found letters p₁)), ?_, fun m => ?_, ?_, fun m => ?_, ?_⟩
  · rw [planPass, hloop]
    rfl
  · rw [htouched]
    unfold passFlipped
    split
    · rename_i hf
      simp only [(hflip _ _).1 m, hf, true_and]
    · rename_i hf
      simp [hf]
  · unfold passFlipped
    split
    · exact (hflip _ _).2 hnodup₃
    · exact hnodup₃
  · rw [← hrenumbered m]
    unfold passFlipped
    split <;> exact Iff.rfl
  · have : (passVanished (vanished order before found)
        (passRights mint before found letters p₁)).renumbered.Nodup := by
      rw [hrn₃, hrn₂]
      exact hrnnodup
    unfold passFlipped
    split <;> exact this

end Huliho
