import Mathlib.Data.Finset.Card
import Mathlib.Data.List.Nodup
import Huliho.Lib.Lifeline
import Huliho.Jmap.Changes

/-!
# The window of a `/changes`

What `fold` answers, in terms of the lifelines of its rows. `fatesOf_get` reads the fate of an
id off its lifeline; where the lifeline is lawful that fate says no more than whether the id stood
before and stands after (`Fate.of_lawful`). `cut_spec` is the cut: it falls between two sequences,
the rows before it list at most `max` ids and the sequence after it would list more.
-/

namespace Huliho.Jmap

/-- The kinds the rows hold of an id, in order. -/
def lifeOf (id : String) (rows : List Change) : List ChangeKind :=
  (rows.filter fun row => row.id = id).map Change.kind

theorem lifeOf_append (id : String) (xs ys : List Change) :
    lifeOf id (xs ++ ys) = lifeOf id xs ++ lifeOf id ys := by
  simp [lifeOf]

theorem lifeOf_ne_nil {id : String} {rows : List Change} :
    lifeOf id rows ≠ [] ↔ ∃ row ∈ rows, row.id = id := by
  simp [lifeOf, List.filter_eq_nil_iff]

/-! ## The fate of an id -/

namespace Fate

/-- The fate a lifeline gives, after the fate it starts from. -/
def along (fate : Option Fate) (kinds : List ChangeKind) : Option Fate :=
  kinds.foldl (fun fate kind => some (fate.elim (start kind) fun fate => fate.next kind)) fate

/-- The fate of an id that stood before or not and stands after or not. -/
def between : Bool → Bool → Fate
  | false, true => created
  | true, true => updated
  | true, false => destroyed
  | false, false => gone

theorem start_eq {alive : Bool} {kind : ChangeKind} (h : kind = .created ↔ alive = false) :
    start kind = between alive kind.leaves := by
  cases kind <;> cases alive <;> simp_all [start, between, ChangeKind.leaves]

theorem next_between {before alive : Bool} {kind : ChangeKind}
    (h : kind = .created ↔ alive = false) :
    (between before alive).next kind = between before kind.leaves := by
  cases kind <;> cases alive <;> cases before <;>
    simp_all [next, between, ChangeKind.leaves]

theorem along_between {before alive : Bool} {kinds : List ChangeKind} (h : Lawful alive kinds) :
    along (some (between before alive)) kinds = some (between before (standing alive kinds)) := by
  induction kinds generalizing alive with
  | nil => rfl
  | cons kind kinds ih =>
    have hstep : along (some (between before alive)) (kind :: kinds) =
        along (some ((between before alive).next kind)) kinds := rfl
    rw [hstep, next_between h.1, ih h.2]
    rfl

/-- **The fate of a lawful lifeline** is what its two ends say. -/
theorem of_lawful {alive : Bool} {kinds : List ChangeKind} (h : Lawful alive kinds)
    (hne : kinds ≠ []) : along none kinds = some (between alive (standing alive kinds)) := by
  cases kinds with
  | nil => exact absurd rfl hne
  | cons kind kinds =>
    have hstep : along none (kind :: kinds) = along (some (start kind)) kinds := rfl
    rw [hstep, start_eq h.1, along_between h.2]
    rfl

end Fate

theorem advance_get (fates : Fates) (row : Change) (id : String) :
    (advance fates row).1[id]? =
      if row.id = id then some (fates[row.id]?.elim (Fate.start row.kind) (·.next row.kind))
      else fates[id]? := by
  simp only [advance, Std.TreeMap.getElem?_insert]
  by_cases h : row.id = id
  · simp [h]
  · simp [h]

theorem foldl_advance_get (rows : List Change) (fates : Fates) (id : String) :
    (rows.foldl (fun fates row => (advance fates row).1) fates)[id]? =
      Fate.along fates[id]? (lifeOf id rows) := by
  induction rows generalizing fates with
  | nil => rfl
  | cons row rows ih =>
    rw [List.foldl_cons, ih, advance_get]
    by_cases h : row.id = id
    · subst h
      simp [lifeOf, Fate.along]
    · simp [lifeOf, h]

/-- **The fate of an id is that of its lifeline.** -/
theorem fatesOf_get (rows : List Change) (id : String) :
    (fatesOf rows)[id]? = Fate.along none (lifeOf id rows) := by
  rw [fatesOf, foldl_advance_get]
  simp

/-! ## The three lists -/

theorem mem_ofFate {fates : Fates} {fate : Fate} {id : String} :
    id ∈ ofFate fates fate ↔ fates[id]? = some fate := by
  rw [ofFate, List.mem_map]
  constructor
  · rintro ⟨entry, hentry, rfl⟩
    obtain ⟨hin, hfate⟩ := List.mem_filter.1 hentry
    rw [← of_decide_eq_true hfate]
    exact Std.TreeMap.mem_toList_iff_getElem?_eq_some.1 hin
  · intro h
    refine ⟨(id, fate), List.mem_filter.2 ⟨?_, decide_eq_true rfl⟩, rfl⟩
    exact Std.TreeMap.mem_toList_iff_getElem?_eq_some.2 h

theorem nodup_ofFate (fates : Fates) (fate : Fate) : (ofFate fates fate).Nodup := by
  have hkeys : fates.toList.Pairwise fun a b => a.1 ≠ b.1 := by
    refine Std.TreeMap.distinct_keys_toList.imp fun hab heq => hab ?_
    rw [heq, Std.compare_self]
  exact List.pairwise_map.2 (hkeys.filter _)

theorem ofFate_disjoint {fates : Fates} {f g : Fate} (h : f ≠ g) :
    (ofFate fates f).Disjoint (ofFate fates g) := by
  intro id hf hg
  rw [mem_ofFate] at hf hg
  exact h (Option.some.inj (hf.symm.trans hg))

/-- The ids the three lists name. -/
def listedIds (fates : Fates) : Finset String :=
  (ofFate fates .created ++ ofFate fates .updated ++ ofFate fates .destroyed).toFinset

theorem mem_listedIds {fates : Fates} {id : String} :
    id ∈ listedIds fates ↔ ∃ fate, fates[id]? = some fate ∧ fate.listed := by
  simp only [listedIds, List.mem_toFinset, List.mem_append, mem_ofFate]
  constructor
  · rintro ((h | h) | h)
    · exact ⟨_, h, rfl⟩
    · exact ⟨_, h, rfl⟩
    · exact ⟨_, h, rfl⟩
  · rintro ⟨fate, h, hl⟩
    cases fate with
    | created => exact .inl (.inl h)
    | updated => exact .inl (.inr h)
    | destroyed => exact .inr h
    | gone => cases hl

/-- The lists are disjoint and name no id twice, so their lengths add up to the ids they name. -/
theorem card_listedIds (fates : Fates) :
    (listedIds fates).card = (ofFate fates .created).length + (ofFate fates .updated).length +
      (ofFate fates .destroyed).length := by
  rw [listedIds, List.toFinset_card_of_nodup, List.length_append, List.length_append]
  refine List.Nodup.append (List.Nodup.append (nodup_ofFate ..) (nodup_ofFate ..)
    (ofFate_disjoint (by decide))) (nodup_ofFate ..) ?_
  rw [List.disjoint_append_left]
  exact ⟨ofFate_disjoint (by decide), ofFate_disjoint (by decide)⟩

/-- One more row moves the count of the listed ids by what its own fate gains and loses. -/
theorem card_listedIds_advance (fates : Fates) (row : Change) :
    (listedIds (advance fates row).1).card = (listedIds fates).card +
      (advance fates row).2.2.listed.toNat - ((advance fates row).2.1.any Fate.listed).toNat := by
  have hget := advance_get fates row
  have hbefore : (advance fates row).2.1 = fates[row.id]? := rfl
  have hafter : (advance fates row).2.2 =
      fates[row.id]?.elim (Fate.start row.kind) (·.next row.kind) := rfl
  have hmem : row.id ∈ listedIds fates ↔ (advance fates row).2.1.any Fate.listed := by
    rw [mem_listedIds, hbefore]
    cases fates[row.id]? <;> simp
  have hstep : listedIds (advance fates row).1 =
      if (advance fates row).2.2.listed then insert row.id (listedIds fates)
      else (listedIds fates).erase row.id := by
    ext id
    rw [mem_listedIds, hget id, ← hafter]
    by_cases h : row.id = id
    · subst h
      rw [if_pos rfl]
      cases hl : (advance fates row).2.2.listed <;> simp [hl]
    · rw [if_neg h, ← mem_listedIds]
      split <;> simp [Ne.symm h]
  rw [hstep]
  cases hl : (advance fates row).2.2.listed <;>
    cases hb : (advance fates row).2.1.any Fate.listed <;>
    simp_all

/-! ## The cut -/

/-- The rows up to a state. -/
def upTo (rows : List Change) (state : Nat) : List Change :=
  rows.filter fun row => row.sequence ≤ state

/-- How many ids the rows list. -/
def listing (rows : List Change) : Nat := (listedIds (fatesOf rows)).card

/-- Rows in the order of their sequences. -/
def Ordered (rows : List Change) : Prop := rows.Pairwise fun a b => a.sequence ≤ b.sequence

theorem mem_upTo {rows : List Change} {state : Nat} {row : Change} :
    row ∈ upTo rows state ↔ row ∈ rows ∧ row.sequence ≤ state := by
  simp [upTo]

theorem upTo_append {xs ys : List Change} {state : Nat} (hx : ∀ x ∈ xs, x.sequence ≤ state)
    (hy : ∀ y ∈ ys, state < y.sequence) : upTo (xs ++ ys) state = xs := by
  have hxs : upTo xs state = xs := List.filter_eq_self.2 fun x h => by simpa using hx x h
  have hys : upTo ys state = [] := List.filter_eq_nil_iff.2 fun y h => by simpa using hy y h
  rw [upTo, List.filter_append, ← upTo, ← upTo, hxs, hys, List.append_nil]

theorem fatesOf_concat (rows : List Change) (row : Change) :
    fatesOf (rows ++ [row]) = (advance (fatesOf rows) row).1 := by
  simp [fatesOf]

/-- Where the loop of `cut` stands: `whole` sequences it has passed, the `group` of rows it has
read of the sequence it is in, and the rest. No sequence it has passed goes past `max`. -/
structure AtCut (rows : List Change) (max : Nat) (whole group rest : List Change) : Prop where
  rows_eq : rows = whole ++ group ++ rest
  same : ∀ a ∈ group, ∀ b ∈ group, a.sequence = b.sequence
  apart : ∀ a ∈ whole, ∀ b ∈ group ++ rest, a.sequence < b.sequence
  fits : ∀ a ∈ whole, listing (upTo rows a.sequence) ≤ max
  closed : (∀ b ∈ rest.head?, ∀ a ∈ group, a.sequence ≠ b.sequence) →
    ∀ a ∈ group, listing (upTo rows a.sequence) ≤ max

variable {rows whole group rest : List Change} {row : Change} {max : Nat}

/-- The loop reads a row: of the sequence it is in, or the first of the next one. -/
theorem AtCut.read (h : AtCut rows max whole group (row :: rest)) (ho : Ordered rows) :
    ∃ whole' group', whole' ++ group' = whole ++ group ++ [row] ∧
      (if rows[whole.length]?.map Change.sequence = some row.sequence then whole.length
        else (whole ++ group).length) = whole'.length ∧
      row ∈ group' ∧ (∀ a ∈ group', a.sequence = row.sequence) ∧
      (∀ a ∈ whole', ∀ b ∈ group' ++ rest, a.sequence < b.sequence) ∧
      ∀ a ∈ whole', listing (upTo rows a.sequence) ≤ max := by
  have hstart : rows[whole.length]? = (group ++ row :: rest).head? := by
    rw [h.rows_eq, List.append_assoc, List.getElem?_append_right le_rfl, Nat.sub_self,
      List.head?_eq_getElem?]
  rw [hstart]
  cases group with
  | nil =>
    refine ⟨whole, [row], by simp, by simp, by simp, by simp, ?_, h.fits⟩
    exact h.apart
  | cons first group =>
    by_cases hs : first.sequence = row.sequence
    · refine ⟨whole, first :: group ++ [row], by simp, by simp [hs], by simp, fun a ha => ?_,
        fun a ha b hb => h.apart a ha b (by simpa using hb), h.fits⟩
      rcases List.mem_append.1 ha with ha | ha
      · exact (h.same a ha first List.mem_cons_self).trans hs
      · rw [List.mem_singleton.1 ha]
    · refine ⟨whole ++ first :: group, [row], by simp, by simp [hs], by simp, by simp, ?_, ?_⟩
      · intro a ha b hb
        rcases List.mem_append.1 ha with ha | ha
        · exact h.apart a ha b (List.mem_append_right _ hb)
        · -- the rows are in order, so another sequence than the group's is a later one
          have hpairs := ho
          rw [Ordered, h.rows_eq, List.pairwise_append] at hpairs
          have hrest := List.pairwise_cons.1 hpairs.2.1
          have hrow := hpairs.2.2 a (List.mem_append_right _ ha) row List.mem_cons_self
          have hfirst := h.same a ha first List.mem_cons_self
          have hb : row.sequence ≤ b.sequence := by
            rcases List.mem_cons.1 hb with rfl | hb
            · exact le_rfl
            · exact hrest.1 b hb
          omega
      · intro a ha
        rcases List.mem_append.1 ha with ha | ha
        · exact h.fits a ha
        · refine h.closed (fun b hb a ha hab => hs ?_) a ha
          obtain rfl : row = b := by simpa using hb
          rw [h.same first List.mem_cons_self a ha, hab]

/-- Where the cut falls: between two sequences, none before it past `max` and the one after it
past `max`. -/
structure CutAt (rows : List Change) (max : Nat) (kept left : List Change) : Prop where
  rows_eq : rows = kept ++ left
  apart : ∀ a ∈ kept, ∀ b ∈ left, a.sequence < b.sequence
  fits : ∀ a ∈ kept, listing (upTo rows a.sequence) ≤ max
  past : ∀ b ∈ left.head?, max < listing (upTo rows b.sequence)

theorem AtCut.cutFrom (ho : Ordered rows) (h : AtCut rows max whole group rest) :
    ∃ kept left, CutAt rows max kept left ∧
      cutFrom rows max rest (whole ++ group).length
        ⟨fatesOf (whole ++ group), listing (whole ++ group), whole.length⟩ = kept.length := by
  induction rest generalizing whole group with
  | nil =>
    refine ⟨rows, [], ⟨by simp, by simp, fun a ha => ?_, by simp⟩, rfl⟩
    rw [h.rows_eq, List.append_nil] at ha
    rcases List.mem_append.1 ha with ha | ha
    · exact h.fits a ha
    · exact h.closed (by simp) a ha
  | cons row rest ih =>
    obtain ⟨whole', group', hread, hstart, hrow, hsame, hapart, hfits⟩ := h.read ho
    have hrows : rows = whole' ++ group' ++ rest := by
      rw [hread, h.rows_eq, List.append_assoc _ [row], List.singleton_append]
    have hlisted : listing (whole ++ group) +
        (advance (fatesOf (whole ++ group)) row).2.2.listed.toNat -
        ((advance (fatesOf (whole ++ group)) row).2.1.any Fate.listed).toNat =
          listing (whole' ++ group') := by
      rw [hread, listing, listing, fatesOf_concat, card_listedIds_advance]
    have hindex : (whole ++ group).length + 1 = (whole' ++ group').length := by
      simp only [hread, List.length_append, List.length_singleton]
    rw [Jmap.cutFrom]
    simp only [hstart, hlisted, ← fatesOf_concat, ← hread, hindex]
    have hcloses : (rest.head?.all fun following => following.sequence ≠ row.sequence) = true ↔
        ∀ b ∈ rest.head?, b.sequence ≠ row.sequence := by
      cases rest.head? <;> simp
    have hpairs := ho
    rw [Ordered, hrows, List.pairwise_append] at hpairs
    have hupTo : (∀ b ∈ rest.head?, b.sequence ≠ row.sequence) →
        upTo rows row.sequence = whole' ++ group' := fun hne => by
      rw [hrows]
      refine upTo_append (fun x hx => ?_) (fun y hy => ?_)
      · rcases List.mem_append.1 hx with hx | hx
        · exact (hapart x hx row (List.mem_append_left _ hrow)).le
        · exact (hsame x hx).le
      · cases rest with
        | nil => cases hy
        | cons following rest =>
          have hfirst := hpairs.2.2 row (List.mem_append_right _ hrow) _ List.mem_cons_self
          have hother := hne following (by simp)
          have hy' : following.sequence ≤ y.sequence := by
            rcases List.mem_cons.1 hy with rfl | hy
            · exact le_rfl
            · exact (List.pairwise_cons.1 hpairs.2.1).1 y hy
          omega
    split
    · rename_i hcut
      refine ⟨whole', group' ++ rest, ⟨by rw [hrows, List.append_assoc], hapart, hfits, ?_⟩, rfl⟩
      intro b hb
      have hb' : b.sequence = row.sequence := by
        cases group' with
        | nil => cases hrow
        | cons first group' =>
          obtain rfl : first = b := by simpa using hb
          exact hsame first List.mem_cons_self
      rw [hb', hupTo (hcloses.1 hcut.1)]
      exact hcut.2
    · rename_i hcut
      refine ih ⟨hrows, fun a ha b hb => (hsame a ha).trans (hsame b hb).symm, hapart, hfits, ?_⟩
      intro hne a ha
      have hcl : ∀ b ∈ rest.head?, b.sequence ≠ row.sequence := fun b hb hc =>
        hne b hb row hrow hc.symm
      rw [hsame a ha, hupTo hcl]
      by_contra hc
      exact hcut ⟨hcloses.2 hcl, by omega⟩

theorem listing_nil : listing [] = 0 := by decide +kernel

/-- **The cut.** -/
theorem cut_spec (rows : List Change) (max : Nat) (ho : Ordered rows) :
    ∃ kept left, CutAt rows max kept left ∧ cut rows max = kept.length := by
  have h : AtCut rows max [] [] rows := ⟨rfl, by simp, by simp, by simp, by simp⟩
  have := h.cutFrom ho
  rw [List.append_nil, listing_nil] at this
  exact this

/-- Before the cut no more than `max` ids are listed. -/
theorem CutAt.listing_le {kept left : List Change} (h : CutAt rows max kept left)
    (ho : Ordered rows) : listing kept ≤ max := by
  rcases List.eq_nil_or_concat kept with rfl | ⟨init, last, rfl⟩
  · rw [listing_nil]
    exact Nat.zero_le max
  · rw [List.concat_eq_append] at h ⊢
    have hlast := h.fits last (by simp)
    have hpairs := ho
    rw [Ordered, h.rows_eq, List.pairwise_append] at hpairs
    rw [h.rows_eq, upTo_append (fun x hx => ?_) fun y hy => h.apart last (by simp) y hy] at hlast
    · exact hlast
    · rcases List.mem_append.1 hx with hx | hx
      · exact (List.pairwise_append.1 hpairs.1).2.2 x hx last (by simp)
      · rw [List.mem_singleton.1 hx]

/-- Nothing cut off: the window takes every row. -/
theorem fold_whole {rows : List Change} {maxChanges : Option Nat} {current : Nat}
    (hc : maxChanges.elim rows.length (cut rows) = rows.length) :
    fold rows maxChanges current = some ⟨ofFate (fatesOf rows) .created,
      ofFate (fatesOf rows) .updated, ofFate (fatesOf rows) .destroyed, current, false⟩ := by
  simp [fold, hc]

/-- Rows cut off: the window stands at the last sequence it took, if it took one. -/
theorem fold_cut {kept left : List Change} {max current : Nat} (hc : cut (kept ++ left) max =
    kept.length) (hl : left ≠ []) :
    fold (kept ++ left) (some max) current = kept.getLast?.map fun last =>
      ⟨ofFate (fatesOf kept) .created, ofFate (fatesOf kept) .updated,
        ofFate (fatesOf kept) .destroyed, last.sequence, true⟩ := by
  have hpos : 0 < left.length := List.length_pos_iff.2 hl
  cases hk : kept.getLast? <;> simp [fold, hc, hpos, hk]

/-- What a window says: the fates of the rows up to its state, no more ids than the cap, a state
of one of the rows where it holds more and the current one where it does not. -/
structure Folds (rows : List Change) (maxChanges : Option Nat) (current : Nat) (window : Window) :
    Prop where
  created : window.created = ofFate (fatesOf (upTo rows window.newState)) .created
  updated : window.updated = ofFate (fatesOf (upTo rows window.newState)) .updated
  destroyed : window.destroyed = ofFate (fatesOf (upTo rows window.newState)) .destroyed
  capped : ∀ max ∈ maxChanges, listing (upTo rows window.newState) ≤ max
  more : window.hasMore = true → ∃ row ∈ rows, row.sequence = window.newState
  last : window.hasMore = false → window.newState = current
  uncapped : maxChanges = none → window.hasMore = false

theorem upTo_of_le {rows : List Change} {state : Nat} (h : ∀ row ∈ rows, row.sequence ≤ state) :
    upTo rows state = rows := List.filter_eq_self.2 fun row hrow => by simpa using h row hrow

/-- **The window of a fold.** -/
theorem fold_spec {rows : List Change} {maxChanges : Option Nat} {current : Nat} {window : Window}
    (ho : Ordered rows) (hb : ∀ row ∈ rows, row.sequence ≤ current)
    (h : fold rows maxChanges current = some window) : Folds rows maxChanges current window := by
  have hall := upTo_of_le hb
  cases maxChanges with
  | none =>
    rw [fold_whole rfl] at h
    obtain rfl := Option.some.inj h
    refine ⟨?_, ?_, ?_, by simp, by simp, fun _ => rfl, fun _ => rfl⟩ <;> simp only [hall]
  | some max =>
    obtain ⟨kept, left, hcut, hlen⟩ := cut_spec rows max ho
    have hle := hcut.listing_le ho
    by_cases hl : left = []
    · have hrows : rows = kept := by rw [hcut.rows_eq, hl, List.append_nil]
      rw [fold_whole (by rw [Option.elim, hlen, ← hrows])] at h
      obtain rfl := Option.some.inj h
      refine ⟨?_, ?_, ?_, ?_, by simp, fun _ => rfl, by simp⟩ <;> simp only [hall]
      rw [hrows]
      simpa using hle
    · rw [hcut.rows_eq] at hlen h
      rw [fold_cut hlen hl, Option.map_eq_some_iff] at h
      obtain ⟨last, hlast, rfl⟩ := h
      have hin := List.mem_of_getLast? hlast
      have hpairs := ho
      rw [Ordered, hcut.rows_eq, List.pairwise_append] at hpairs
      have hkept : upTo rows last.sequence = kept := by
        rw [hcut.rows_eq]
        refine upTo_append (fun x hx => ?_) fun y hy => hcut.apart last hin y hy
        obtain ⟨init, rfl⟩ := List.getLast?_eq_some_iff.1 hlast
        rcases List.mem_append.1 hx with hx | hx
        · exact (List.pairwise_append.1 hpairs.1).2.2 x hx last (by simp)
        · rw [List.mem_singleton.1 hx]
      refine ⟨?_, ?_, ?_, ?_, fun _ => ⟨last, ?_, rfl⟩, by simp, by simp⟩
      · simp only [hkept]
      · simp only [hkept]
      · simp only [hkept]
      · simpa only [hkept, Option.mem_some_iff, forall_eq'] using hle
      · rw [hcut.rows_eq]
        exact List.mem_append_left _ hin

/-- **A fold has no window** exactly where the first sequence alone goes past the cap. -/
theorem fold_eq_none {rows : List Change} {maxChanges : Option Nat} {current : Nat}
    (ho : Ordered rows) :
    fold rows maxChanges current = none ↔
      ∃ max ∈ maxChanges, ∃ first ∈ rows.head?, max < listing (upTo rows first.sequence) := by
  cases maxChanges with
  | none =>
    rw [fold_whole rfl]
    simp
  | some max =>
    obtain ⟨kept, left, hcut, hlen⟩ := cut_spec rows max ho
    constructor
    · intro h
      have hl : left ≠ [] := fun hl => by
        have hrows : rows = kept := by rw [hcut.rows_eq, hl, List.append_nil]
        rw [fold_whole (by rw [Option.elim, hlen, ← hrows])] at h
        cases h
      have hk : kept = [] := by
        rw [hcut.rows_eq] at hlen h
        rw [fold_cut hlen hl] at h
        simpa using h
      have hrows : rows = left := by rw [hcut.rows_eq, hk, List.nil_append]
      obtain ⟨first, rest, rfl⟩ := List.exists_cons_of_ne_nil hl
      exact ⟨max, rfl, first, by rw [hrows]; rfl, hcut.past first rfl⟩
    · rintro ⟨m, hm, first, hfirst, hpast⟩
      obtain rfl : max = m := by simpa using hm
      have hk : kept = [] := by
        cases kept with
        | nil => rfl
        | cons a kept =>
          obtain rfl : a = first := by
            rw [hcut.rows_eq] at hfirst
            simpa using hfirst
          have := hcut.fits a List.mem_cons_self
          omega
      have hl : left ≠ [] := fun hl => by
        rw [hcut.rows_eq, hk, hl] at hfirst
        cases hfirst
      rw [hcut.rows_eq] at hlen ⊢
      rw [fold_cut hlen hl, hk]
      rfl

end Huliho.Jmap
