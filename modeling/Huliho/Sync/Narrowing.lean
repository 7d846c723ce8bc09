import Mathlib.Algebra.GroupWithZero.Nat
import Mathlib.Algebra.Order.BigOperators.Group.List
import Huliho.Sync.Journey

/-!
# A failing slice comes to a verdict

A slice that failed is worth so many fetches: `Slice.weight` counts the ones that halve it, the two
of each lone message with and without its structure. Every fetch the server answers takes one off
what a sync has in hand — `Journey.Going.spends` — so after that many the UIDs of the slice are
written or left out, as long as the budget lasts. `Reached.none_passed_over` gathers what holds of
every walk; `narrowing_gives_up` is the walk whose budget does not last.
-/

namespace Huliho.Sync

/-! ## What a slice is worth -/

/-- The fetches after which every message of the slice is written or left out. -/
def Slice.weight (slice : Slice) : Nat :=
  if slice.withStructure then 3 * slice.uids.length - 1 else 1

/-- Several messages go with their structure, a lone one also without. -/
def Slice.Sound (slice : Slice) : Prop :=
  slice.uids ≠ [] ∧ (slice.withStructure = false → slice.uids.length = 1)

theorem Slice.Sound.weight_pos {slice : Slice} (h : slice.Sound) : 0 < slice.weight := by
  have hlen := List.length_pos_iff.2 h.1
  unfold weight
  split <;> omega

namespace FolderSync

/-- The fetches the slices in hand are worth. -/
def weight (s : FolderSync) : Nat := (s.retry.map Slice.weight).sum

/-- The messages of the slices in hand. -/
def size (s : FolderSync) : Nat := (s.retry.map fun slice => slice.uids.length).sum

theorem size_eq_zero {s : FolderSync} (h : s.retry = []) : s.size = 0 := by
  simp [size, h]

/-- Slices in hand go before anything new. -/
theorem nextSlice_retry {s : FolderSync} (h : s.retry ≠ []) :
    ∃ slice rest, s.nextSlice = (some slice, rest) ∧ s.retry = rest.retry ++ [slice] ∧
      rest.pending = none ∧ rest.budget = s.budget := by
  cases hp : s.pending with
  | some pending =>
    refine ⟨pending, { s with pending := none }, by simp [nextSlice, hp], ?_, rfl, rfl⟩
    simp [retry, hp]
  | none =>
    have hne : s.narrowed ≠ [] := by simpa [retry, hp] using h
    obtain ⟨front, last, hlast⟩ : ∃ front last, s.narrowed = front ++ [last] :=
      ⟨_, _, (List.dropLast_concat_getLast hne).symm⟩
    refine ⟨last, { s with narrowed := front }, ?_, ?_, hp, rfl⟩
    · simp [nextSlice, hp, hlast]
    · simp [retry, hp, hlast]

theorem retry_push {s : FolderSync} (hp : s.pending = none) (slices : List Slice) :
    ({ s with narrowed := s.narrowed ++ slices } : FolderSync).retry = s.retry ++ slices := by
  simp [retry, hp]

/-- **A narrowing takes one fetch off** and keeps every message but the one it leaves out. -/
theorem narrow_cost {s s' : FolderSync} {slice : Slice} {left : Option Nat}
    (hp : s.pending = none) (hb : s.budget ≠ 0) (hslice : slice.Sound)
    (h : s.narrow slice = (left, s')) :
    left.toList.length + s'.size = s.size + slice.uids.length ∧
      s'.weight + 1 = s.weight + slice.weight ∧ s'.budget + 1 = s.budget := by
  obtain ⟨hne, hlone⟩ := hslice
  have hpos := List.length_pos_iff.2 hne
  unfold narrow at h
  split at h
  · contradiction
  rename_i budget hbudget
  have hpending : ({ s with budget } : FolderSync).pending = none := hp
  have hretry : ({ s with budget } : FolderSync).retry = s.retry := rfl
  revert h hpending hretry
  generalize hspent : ({ s with budget } : FolderSync) = spent
  intro h hpending hretry
  have hleft : spent.budget + 1 = s.budget := by rw [← hspent, hbudget]
  split at h
  · rename_i hlong
    obtain ⟨rfl, rfl⟩ := Prod.mk.inj h
    have hwith : slice.withStructure = true := by
      cases hw : slice.withStructure with
      | false => have := hlone hw; omega
      | true => rfl
    have hperm : ∀ f : Slice → Nat, ∀ lower upper : Slice, ((if spent.downward then [lower, upper]
        else [upper, lower]).map f).sum = f lower + f upper := by
      intro f lower upper
      split
      · simp
      · simp [Nat.add_comm]
    refine ⟨?_, ?_, hleft⟩
    · rw [size, retry_push hpending, List.map_append, List.sum_append, hperm, hretry]
      simp only [Option.toList_none, List.length_nil, List.length_take, List.length_drop, size]
      omega
    · rw [weight, retry_push hpending, List.map_append, List.sum_append, hperm, hretry]
      simp only [Slice.weight, hwith, if_true, List.length_take, List.length_drop, weight]
      omega
  split at h
  · rename_i hshort hwith
    obtain ⟨rfl, rfl⟩ := Prod.mk.inj h
    refine ⟨?_, ?_, hleft⟩
    · rw [size, retry_push hpending, List.map_append, List.sum_append, hretry]
      simp [size]
    · rw [weight, retry_push hpending, List.map_append, List.sum_append, hretry]
      have hone : slice.uids.length = 1 := by omega
      simp [Slice.weight, hwith, hone, weight]
  · rename_i hshort hwith
    obtain ⟨rfl, rfl⟩ := Prod.mk.inj h
    have hone := hlone (by simpa using hwith)
    obtain ⟨u, hu⟩ := List.length_eq_one_iff.1 hone
    refine ⟨?_, ?_, hleft⟩
    · rw [size, hretry, hu]
      simp [size, Nat.add_comm]
    · rw [weight, hretry]
      simp [Slice.weight, hwith, weight]

/-- With the budget spent a slice goes back whole. -/
theorem narrow_spent {s : FolderSync} (hb : s.budget = 0) (slice : Slice) :
    s.narrow slice = (none, { s with narrowed := s.narrowed ++ [slice] }) := by
  unfold narrow
  rw [hb]

end FolderSync

/-! ## What a move costs -/

/-- What happens to a walk that goes on. -/
inductive Move
  | turn (env : Env) (answer : Answer)
  | extend (through : Nat)

/-- One for a fetch the server answered, with messages or with something it cannot be read from. -/
def Move.answered : Move → Nat
  | .turn _ (.fetched _) => 1
  | .turn _ .protocol => 1
  | _ => 0

/-- One for a fetch that failed on what the server sent. -/
def Move.spent : Move → Nat
  | .turn _ .protocol => 1
  | _ => 0

namespace Journey

def move (j : Journey) : Move → Journey
  | .turn env answer => j.turn env answer
  | .extend through => j.extend through

def run (j : Journey) (moves : List Move) : Journey := moves.foldl Journey.move j

@[simp] theorem run_nil (j : Journey) : j.run [] = j := rfl

@[simp] theorem run_cons (j : Journey) (m : Move) (moves : List Move) :
    j.run (m :: moves) = (j.move m).run moves := rfl

theorem turn_none {j : Journey} (h : j.sync = none) (env : Env) (answer : Answer) :
    j.turn env answer = j := by
  unfold turn
  rw [h]

theorem move_none {j : Journey} (h : j.sync = none) (m : Move) : j.move m = j := by
  cases m with
  | turn env answer => exact turn_none h env answer
  | extend through =>
    show j.extend through = j
    unfold extend
    rw [h]

theorem run_none {j : Journey} (h : j.sync = none) (moves : List Move) : j.run moves = j := by
  induction moves with
  | nil => rfl
  | cons m moves ih => rw [run_cons, move_none h, ih]

/-- Moves only add to what is listed and to what is passed. -/
theorem move_grows (j : Journey) (m : Move) :
    (∃ more, (j.move m).line = j.line ++ more) ∧ ∃ more, (j.move m).passed = j.passed ++ more := by
  cases hs : j.sync with
  | none =>
    rw [move_none hs]
    exact ⟨⟨[], by simp⟩, ⟨[], by simp⟩⟩
  | some s =>
    cases m with
    | turn env answer =>
      have hturn : j.move (.turn env answer) = j.turn env answer := rfl
      rw [hturn, turn, hs]
      exact ⟨⟨[], by simp⟩, ⟨_, rfl⟩⟩
    | extend through =>
      have hextend : j.move (.extend through) = j.extend through := rfl
      rw [hextend, extend, hs]
      exact ⟨⟨_, rfl⟩, ⟨[], by simp⟩⟩

theorem run_grows (j : Journey) (moves : List Move) :
    (∃ more, (j.run moves).line = j.line ++ more) ∧
      ∃ more, (j.run moves).passed = j.passed ++ more := by
  induction moves generalizing j with
  | nil => exact ⟨⟨[], by simp⟩, ⟨[], by simp⟩⟩
  | cons m moves ih =>
    obtain ⟨⟨line, hline⟩, passed, hpassed⟩ := j.move_grows m
    obtain ⟨⟨line', hline'⟩, passed', hpassed'⟩ := ih (j.move m)
    rw [run_cons]
    exact ⟨⟨line ++ line', by rw [hline', hline, List.append_assoc]⟩,
      ⟨passed ++ passed', by rw [hpassed', hpassed, List.append_assoc]⟩⟩

theorem Going.move {j : Journey} (h : j.Going) (m : Move) : (j.move m).Going := by
  cases m with
  | turn env answer => exact h.turn env answer
  | extend through => exact h.extend through

theorem Going.run {j : Journey} (h : j.Going) (moves : List Move) : (j.run moves).Going := by
  induction moves generalizing j with
  | nil => exact h
  | cons m moves ih => exact ih (h.move m)

theorem Holds.sound {j : Journey} {s : FolderSync} (h : j.Holds s) {slice : Slice}
    (hm : slice ∈ s.retry) : slice.Sound := by
  refine ⟨h.slices slice hm, fun hw => ?_⟩
  obtain ⟨u, hu, -⟩ := h.lone slice hm hw
  rw [hu]
  rfl

end Journey

theorem weight_le {s s' : FolderSync} {slice : Slice} (h : s.retry = s'.retry ++ [slice]) :
    s.weight = s'.weight + slice.weight ∧ s.size = s'.size + slice.uids.length := by
  simp [FolderSync.weight, FolderSync.size, h]

/-- **A move with slices in hand**: no message of theirs is lost, and each answered fetch takes one
off what they are worth. -/
theorem Journey.Going.spends {j : Journey} (h : j.Going) {s s' : FolderSync} {m : Move}
    (hs : j.sync = some s) (hs' : (j.move m).sync = some s') (hretry : s.retry ≠ [])
    (hb : m.spent ≤ s.budget) :
    (j.move m).passed.length + s'.size = j.passed.length + s.size ∧
      s'.weight + m.answered ≤ s.weight ∧ s.budget ≤ s'.budget + m.spent := by
  have hold := h.holds s hs
  cases m with
  | extend through =>
    have hmove : j.move (.extend through) = j.extend through := rfl
    rw [hmove, Journey.extend, hs] at hs' ⊢
    simp only [FolderSync.extendTo] at hs'
    split at hs'
    · obtain rfl := Option.some.inj hs'
      exact ⟨rfl, Nat.le_refl _, Nat.le_refl _⟩
    split at hs'
    · cases hs'
    · obtain rfl := Option.some.inj hs'
      exact ⟨rfl, Nat.le_refl _, Nat.le_refl _⟩
  | turn env answer =>
    have hmove : j.move (.turn env answer) = j.turn env answer := rfl
    rw [hmove, Journey.turn, hs] at hs' ⊢
    simp only [List.length_append] at hs' ⊢
    obtain ⟨slice, rest, hn, hsplit, hpending, hbudget⟩ := FolderSync.nextSlice_retry hretry
    have hslice : slice.Sound := hold.sound (hsplit ▸ List.mem_append_right _ (by simp))
    obtain ⟨hweight, hsize⟩ := weight_le hsplit
    have hpos := hslice.weight_pos
    obtain ⟨range, hrange⟩ :=
      Option.ne_none_iff_exists'.1 fun hc => hslice.1 (FolderSync.range_none hc)
    cases answer with
    | dropped =>
      have hbatch : s.batch env j.store .dropped =
          ({ rest with pending := some slice }, j.store, .error .cut) := by
        simp [FolderSync.batch, hn, hrange]
      rw [hbatch] at hs'
      obtain rfl := Option.some.inj hs'
      have hback : ({ rest with pending := some slice } : FolderSync).retry = s.retry := by
        rw [hsplit]
        simp [FolderSync.retry, hpending]
      rw [FolderSync.passes, hn, FolderSync.size, FolderSync.weight, hback]
      exact ⟨rfl, Nat.le_refl _, by simp [Move.spent, hbudget]⟩
    | other =>
      have hbatch : s.batch env j.store .other =
          ({ rest with narrowed := rest.narrowed ++ [slice] }, j.store, .error .session) := by
        simp [FolderSync.batch, hn, hrange]
      rw [hbatch] at hs'
      obtain rfl := Option.some.inj hs'
      have hback : ({ rest with narrowed := rest.narrowed ++ [slice] } : FolderSync).retry =
          s.retry := by
        rw [FolderSync.retry_push hpending, hsplit]
      rw [FolderSync.passes, hn, FolderSync.size, FolderSync.weight, hback]
      exact ⟨rfl, Nat.le_refl _, by simp [Move.spent, hbudget]⟩
    | fetched messages =>
      have hpasses : s.passes env j.store (.fetched messages) =
          if Goes (s.batch env j.store (.fetched messages)).2.2 then
            (s.ordered slice.uids).map fun u => (u, .written) else [] := by
        simp [FolderSync.passes, hn]
      have hsync : (s.batch env j.store (.fetched messages)).1 =
          { rest with answered := min (rest.answered + messages.length) U32_MAX } := by
        simp [FolderSync.batch, hn, hrange]
      have hends : ¬ Goes (s.batch env j.store (.fetched messages)).2.2 →
          Ends (s.batch env j.store (.fetched messages)).2.2 := by
        simp only [FolderSync.batch, hn, hrange]
        exact ends_of_not_goes
      rw [hpasses]
      split at hs'
      · cases hs'
      rename_i hgoes
      rw [hsync] at hs'
      obtain rfl := Option.some.inj hs'
      have hgoes := not_not.1 (mt hends hgoes)
      rw [if_pos hgoes, List.length_map]
      have hlen : (s.ordered slice.uids).length = slice.uids.length := by
        unfold FolderSync.ordered
        split <;> simp
      have hanswered : (Move.turn env (.fetched messages)).answered = 1 := rfl
      rw [hlen, hanswered, hsize, hweight]
      refine ⟨?_, ?_, ?_⟩
      · show _ + rest.size = _
        omega
      · show rest.weight + 1 ≤ _
        omega
      · show s.budget ≤ rest.budget + 0
        omega
    | protocol =>
      have hb : 1 ≤ s.budget := hb
      have hpasses : s.passes env j.store .protocol =
          (rest.narrow slice).1.toList.map fun u => (u, .leftOut) := by
        simp [FolderSync.passes, hn]
      have hsync : (s.batch env j.store .protocol).1 = (rest.narrow slice).2 := by
        cases hnarrow : rest.narrow slice with
        | mk left narrowed => cases left <;> simp [FolderSync.batch, hn, hrange, hnarrow]
      rw [hsync] at hs'
      split at hs'
      · cases hs'
      cases hnarrow : rest.narrow slice with
      | mk left narrowed =>
      rw [hnarrow] at hs'
      obtain rfl := Option.some.inj hs'
      obtain ⟨hlength, hless, hleft⟩ := FolderSync.narrow_cost hpending (by omega) hslice hnarrow
      have hanswered : (Move.turn env .protocol).answered = 1 := rfl
      have hspent : (Move.turn env .protocol).spent = 1 := rfl
      rw [hpasses, hnarrow, List.length_map, hanswered, hspent]
      simp only
      omega

theorem Journey.Holds.retry_nil {j : Journey} {s : FolderSync} (h : j.Holds s)
    (hw : s.weight = 0) : s.retry = [] := by
  refine List.eq_nil_iff_forall_not_mem.2 fun slice hm => ?_
  have hpos := (h.sound hm).weight_pos
  have hle : slice.weight ≤ s.weight := List.single_le_sum (by simp) _ (List.mem_map_of_mem hm)
  omega

/-- The answered fetches of a run, and those of them that failed. -/
def answered (moves : List Move) : Nat := (moves.map Move.answered).sum

def spent (moves : List Move) : Nat := (moves.map Move.spent).sum

/-- **A run within the budget** passes all the slices in hand held when it began. -/
theorem Journey.Going.judged {j : Journey} (h : j.Going) {s : FolderSync} (hs : j.sync = some s)
    (moves : List Move) (hgo : (j.run moves).sync.isSome) (hb : spent moves ≤ s.budget)
    (hw : s.weight ≤ answered moves) :
    j.passed.length + s.size ≤ (j.run moves).passed.length := by
  induction moves generalizing j s with
  | nil =>
    have hnone : s.retry = [] := (h.holds s hs).retry_nil (Nat.le_zero.1 hw)
    rw [FolderSync.size_eq_zero hnone]
    exact Nat.le_refl _
  | cons m moves ih =>
    by_cases hretry : s.retry = []
    · obtain ⟨-, more, hmore⟩ := j.run_grows (m :: moves)
      rw [hmore, FolderSync.size_eq_zero hretry, List.length_append]
      omega
    simp only [spent, answered, List.map_cons, List.sum_cons] at hb hw
    rw [Journey.run_cons] at hgo ⊢
    cases hs' : (j.move m).sync with
    | none =>
      rw [Journey.run_none hs', hs'] at hgo
      cases hgo
    | some s' =>
      obtain ⟨hsize, hweight, hbudget⟩ := h.spends hs hs' hretry (by omega)
      rw [← hsize]
      refine ih (h.move m) hs' hgo ?_ ?_
      · rw [spent]
        omega
      · rw [answered]
        omega

/-- The UIDs of the slices in hand come next in the list. -/
theorem Journey.Going.next_mem {j : Journey} (h : j.Going) {s : FolderSync} (hs : j.sync = some s)
    {slice : Slice} (hm : slice ∈ s.retry) {u : Nat} (hu : u ∈ slice.uids) :
    u ∈ j.line.take (j.passed.length + s.size) := by
  have hold := h.holds s hs
  have hlen : (s.retry.reverse.flatMap fun slice => s.ordered slice.uids).length = s.size := by
    rw [List.length_flatMap, FolderSync.size, List.map_reverse, List.sum_reverse]
    congr 2
    funext slice
    unfold FolderSync.ordered
    split <;> simp
  rw [h.line, ← hold.toGo, FolderSync.toGo, ← List.append_assoc, List.take_left' (by simp [hlen])]
  refine List.mem_append_right _ (List.mem_flatMap.2 ⟨slice, List.mem_reverse.2 hm, ?_⟩)
  exact FolderSync.mem_ordered.2 hu

/-- **Every UID of a failing slice comes to a verdict.** -/
theorem Journey.Going.verdict {j : Journey} (h : j.Going) {s : FolderSync} (hs : j.sync = some s)
    (moves : List Move) (hgo : (j.run moves).sync.isSome) (hb : spent moves ≤ s.budget)
    (hw : s.weight ≤ answered moves) {slice : Slice} (hm : slice ∈ s.retry) {u : Nat}
    (hu : u ∈ slice.uids) : u ∈ (j.run moves).passed.map Prod.fst := by
  have hjudged := h.judged hs moves hgo hb hw
  obtain ⟨⟨more, hmore⟩, -⟩ := j.run_grows moves
  have hpassed : (j.run moves).passed.map Prod.fst =
      (j.run moves).line.take (j.run moves).passed.length := by
    rw [(h.run moves).line, List.take_left' (by simp)]
  have hinit : j.line.take (j.passed.length + s.size) <+: (j.run moves).line := by
    rw [hmore]
    exact (List.take_prefix _ _).trans (List.prefix_append _ _)
  rw [hpassed]
  refine (List.prefix_take_iff.2 ⟨hinit, ?_⟩).subset (h.next_mem hs hm hu)
  rw [List.length_take]
  omega

/-! ## No message is passed over -/

/-- A turn writes once or not at all. -/
theorem FolderSync.batch_store (s : FolderSync) (env : Env) (store : Store) (answer : Answer) :
    (s.batch env store answer).2.1 = store ∨ ∃ s' messages passed, SameWalk s s' ∧
      (s.batch env store answer).2.1 = (s'.write env store messages passed).1 := by
  cases hn : s.nextSlice with
  | mk next rest =>
  cases next with
  | none =>
    obtain ⟨-, rfl⟩ := nextSlice_none hn
    exact .inr ⟨rest, [], none, ⟨rfl, rfl, rfl⟩, by simp [batch, hn]⟩
  | some slice =>
    obtain ⟨-, -, hsame, -⟩ := nextSlice_some hn
    cases hrange : slice.range with
    | none => exact .inl (by simp [batch, hn, hrange])
    | some range =>
      cases answer with
      | dropped => exact .inl (by simp [batch, hn, hrange])
      | other => exact .inl (by simp [batch, hn, hrange])
      | fetched messages =>
        refine .inr ⟨{ rest with answered := min (rest.answered + messages.length) U32_MAX },
          messages, some range, ⟨hsame.walk, hsame.folder, hsame.top⟩, ?_⟩
        simp [batch, hn, hrange]
      | protocol =>
        cases hnarrow : rest.narrow slice with
        | mk left narrowed =>
        cases left with
        | none => exact .inl (by simp [batch, hn, hrange, hnarrow])
        | some uid =>
          obtain ⟨-, -, hnarrowed, -⟩ := narrow_some hnarrow
          exact .inr ⟨narrowed, [], some (uid, uid), hsame.trans hnarrowed, by
            simp [batch, hn, hrange, hnarrow]⟩

namespace Journey

/-- `u` has its verdict. -/
def Judged (j : Journey) (u : Nat) : Prop := j.At .written u ∨ j.At .leftOut u

theorem judged_iff {j : Journey} {u : Nat} : j.Judged u ↔ u ∈ j.passed.map Prod.fst := by
  constructor
  · rintro (h | h)
    · exact List.mem_map.2 ⟨_, h, rfl⟩
    · exact List.mem_map.2 ⟨_, h, rfl⟩
  · intro h
    obtain ⟨⟨v, verdict⟩, hm, rfl⟩ := List.mem_map.1 h
    cases verdict with
    | written => exact .inl hm
    | leftOut => exact .inr hm

/-- What is on record passed nothing without a verdict: the lowest UID of a first sync and its end,
the UIDNEXT of a walk upward; a walk beside both moves nothing. -/
def Recorded (j : Journey) : Prop :=
  match j.way with
  | .down => ∀ r ∈ j.store.tables.sync, r.folderId = j.folder →
      (∀ l, r.lowestSyncedUid = some l → ∀ u ∈ j.line, l ≤ u → j.Judged u) ∧
        (r.done = true → ∀ u ∈ j.line, j.Judged u)
  | .up => ∀ r ∈ j.store.tables.sync, r.folderId = j.folder →
      ∀ n, r.uidNext = some n → ∀ u ∈ j.line, u < n → j.Judged u
  | .beside => ∀ env answer, (j.turn env answer).store.tables.sync = j.store.tables.sync

/-- What was listed and is still there is listed after every reopening as well. -/
structure Relists (j : Journey) : Prop where
  down : j.way = .down → ∀ (row : MailboxRow) (gmail : Bool)
    (selected : Option FolderSync.Selected) (uids : List Nat) (s : FolderSync) (lowest : Nat),
    (syncProgress j.store.tables row.id).lowestSyncedUid = some lowest →
    FolderSync.openDown j.store.tables row gmail selected uids = some s →
    ∀ u ∈ j.line, u ∈ uids → u ∈ (j.reopen s fun u => lowest ≤ u).line
  up : j.way = .up → ∀ (row : MailboxRow) (through : Nat) (gmail : Bool) (uids : List Nat)
    (s : FolderSync) (uidNext : Nat), FolderSync.above row uidNext through gmail uids = some s →
    ∀ u ∈ j.line, 0 < u → u ≤ through → u ∈ uids → u ∈ (j.reopen s fun u => u < uidNext).line

theorem relists (j : Journey) : j.Relists := by
  refine ⟨fun _ row gmail selected uids s lowest hl ho u hu hm => ?_,
    fun _ row through gmail uids s uidNext ho u hu hpos hle hm => ?_⟩
  · by_cases hkept : lowest ≤ u
    · exact List.mem_append_left _ (List.mem_filter.2 ⟨hu, decide_eq_true hkept⟩)
    · refine List.mem_append_right _ (List.mem_reverse.2 ?_)
      unfold FolderSync.openDown at ho
      split at ho
      · simp only at ho
        split at ho
        · cases ho
        obtain rfl := Option.some.inj ho
        simp only [hl, List.mem_reverse, List.mem_filter, decide_eq_true_eq]
        exact ⟨hm, by omega⟩
      · cases ho
  · by_cases hkept : u < uidNext
    · exact List.mem_append_left _ (List.mem_filter.2 ⟨hu, decide_eq_true hkept⟩)
    · refine List.mem_append_right _ (List.mem_reverse.2 ?_)
      unfold FolderSync.above at ho
      simp only at ho
      have hrange : max uidNext 1 ≤ u ∧ u ≤ through := ⟨by omega, hle⟩
      split at ho
      · split at ho
        · obtain rfl := Option.some.inj ho
          simp only
          split
          · exact List.mem_reverse.2 (mem_span.2 hrange)
          · exact List.mem_filter.2 ⟨hm, decide_eq_true hrange⟩
        · cases ho
      · cases ho

/-- A walk beside the others leaves their progress alone. -/
theorem Going.beside {j : Journey} (h : j.Going) (hw : j.way = .beside) (env : Env)
    (answer : Answer) : (j.turn env answer).store.tables.sync = j.store.tables.sync := by
  unfold Journey.turn
  cases hs : j.sync with
  | none => rfl
  | some s =>
    have hold := h.holds s hs
    have hwalk : s.walk = .beside := by
      have := hold.way
      rw [hw] at this
      cases hwalk : s.walk with
      | beside => rfl
      | down synced => simp [hwalk, Walk.way] at this
      | up => simp [hwalk, Walk.way] at this
    have hwrite : ∀ (s' : FolderSync), s'.walk = .beside → ∀ messages passed,
        (s'.write env j.store messages passed).1.tables.sync = j.store.tables.sync := by
      intro s' hw' messages passed
      unfold FolderSync.write FolderSync.advance
      rw [hw']
      simp only
      cases passed with
      | none => rfl
      | some range =>
        rcases applyBatch_sync env j.store ⟨s'.folder, s'.uidValidity,
          messages.filterMap FetchedMessage.email, .beside⟩ with ⟨hsync, -⟩ | ⟨-, t₀, ht₀, hsync⟩
        · exact hsync
        · exact hsync.trans ht₀
    rcases s.batch_store env j.store answer with hstore | ⟨s', messages, passed, hsame, hstore⟩
    · exact congrArg (fun store => store.tables.sync) hstore
    · have hstore := congrArg (fun store => store.tables.sync) hstore
      exact hstore.trans (hwrite s' (hsame.walk.trans hwalk) messages passed)

theorem Going.recorded {j : Journey} (h : j.Going) : j.Recorded := by
  have hjudged : ∀ u ∈ j.line, u ∉ j.ahead → j.Judged u := by
    intro u hu hnot
    rw [h.line] at hu
    exact judged_iff.2 ((List.mem_append.1 hu).resolve_right hnot)
  have hbehind := h.behind
  unfold Recorded
  cases hw : j.way with
  | down =>
    intro r hr hf
    have hb := hbehind r hr hf
    rw [hw] at hb
    refine ⟨fun l hl u hu hle => hjudged u hu fun hin => ?_, fun hd u hu => hjudged u hu ?_⟩
    · have := hb.1 l hl u hin
      omega
    · rw [hb.2 hd]
      exact List.not_mem_nil
  | up =>
    intro r hr hf n hn u hu hlt
    have hb := hbehind r hr hf
    rw [hw] at hb
    refine hjudged u hu fun hin => ?_
    have := hb n hn u hin
    omega
  | beside => exact h.beside hw

/-- Nothing is listed twice. -/
theorem Going.nodup {j : Journey} (h : j.Going) : j.line.Nodup := by
  refine h.sorted.imp fun {a b} hab => ?_
  cases hw : j.way <;> rw [hw] at hab
  · exact (Nat.ne_of_lt hab).symm
  · exact Nat.ne_of_lt hab
  · exact Nat.ne_of_lt hab

/-- A UID that is ahead is in a slice that is fetched again or waits, and not both. -/
theorem Going.ahead_stands {j : Journey} (h : j.Going) {u : Nat} :
    (u ∈ j.ahead → j.At .retry u ∨ j.At .waiting u) ∧ (j.At .retry u → u ∈ j.ahead) ∧
      (j.At .waiting u → u ∈ j.ahead) ∧ ¬ (j.At .retry u ∧ j.At .waiting u) := by
  have hnodup := h.nodup
  have hline := h.line
  rw [hline] at hnodup
  cases hs : j.sync with
  | none =>
    have hretry : ¬ j.At .retry u := by
      rintro ⟨s, hc, -⟩
      rw [hs] at hc
      cases hc
    have hwaiting : j.At .waiting u ↔ u ∈ j.line ∧ u ∉ j.passed.map Prod.fst := by
      simp only [At, hs]
    have hapart := (List.nodup_append'.1 hnodup).2.2
    refine ⟨fun hu => .inr (hwaiting.2 ⟨?_, fun hc => hapart hc hu⟩), fun hc => absurd hc hretry,
      fun hc => ?_, fun hc => hretry hc.1⟩
    · rw [hline]
      exact List.mem_append_right _ hu
    · obtain ⟨hu, hnot⟩ := hwaiting.1 hc
      rw [hline] at hu
      exact (List.mem_append.1 hu).resolve_left hnot
  | some s =>
    have hold := h.holds s hs
    have hretry : j.At .retry u ↔ ∃ slice ∈ s.retry, u ∈ slice.uids := by
      simp [At, hs]
    have hwaiting : j.At .waiting u ↔ u ∈ s.remaining := by
      simp only [At, hs]
    rw [hretry, hwaiting, ← hold.toGo]
    refine ⟨FolderSync.mem_toGo.1, fun hr => FolderSync.mem_toGo.2 (.inl hr),
      fun hr => FolderSync.mem_toGo.2 (.inr hr), ?_⟩
    rintro ⟨⟨slice, hm, hu⟩, hr⟩
    have hgo := (List.nodup_append'.1 hnodup).2.1
    rw [← hold.toGo, FolderSync.toGo] at hgo
    refine (List.nodup_append'.1 hgo).2.2 ?_ (List.mem_reverse.2 hr)
    exact List.mem_flatMap.2 ⟨slice, List.mem_reverse.2 hm, FolderSync.mem_ordered.2 hu⟩

/-- A UID of the list stands in one place. -/
theorem Going.standing {j : Journey} (h : j.Going) {u : Nat} (hu : u ∈ j.line) :
    ∃! standing, j.At standing u := by
  obtain ⟨hahead, hretry, hwaiting, hboth⟩ := h.ahead_stands (u := u)
  have hnodup := h.nodup
  rw [h.line] at hnodup hu
  obtain ⟨hpassed, -, hapart⟩ := List.nodup_append'.1 hnodup
  have hone : ∀ a b : Verdict, (u, a) ∈ j.passed → (u, b) ∈ j.passed → a = b := fun a b ha hb =>
    (Prod.mk.inj (List.inj_on_of_nodup_map hpassed ha hb rfl)).2
  have hnot : ∀ a : Verdict, (u, a) ∈ j.passed → u ∉ j.ahead := fun a ha =>
    hapart (List.mem_map.2 ⟨_, ha, rfl⟩)
  rcases List.mem_append.1 hu with hu | hu
  · obtain ⟨⟨v, verdict⟩, hm, rfl⟩ := List.mem_map.1 hu
    cases verdict with
    | written =>
      refine ⟨.written, hm, fun other ho => ?_⟩
      cases other with
      | written => rfl
      | leftOut => cases hone _ _ hm ho
      | retry => exact absurd (hretry ho) (hnot _ hm)
      | waiting => exact absurd (hwaiting ho) (hnot _ hm)
    | leftOut =>
      refine ⟨.leftOut, hm, fun other ho => ?_⟩
      cases other with
      | written => cases hone _ _ hm ho
      | leftOut => rfl
      | retry => exact absurd (hretry ho) (hnot _ hm)
      | waiting => exact absurd (hwaiting ho) (hnot _ hm)
  · rcases hahead hu with hr | hr
    · refine ⟨.retry, hr, fun other ho => ?_⟩
      cases other with
      | written => exact absurd hu (hnot _ ho)
      | leftOut => exact absurd hu (hnot _ ho)
      | retry => rfl
      | waiting => exact absurd ⟨hr, ho⟩ hboth
    · refine ⟨.waiting, hr, fun other ho => ?_⟩
      cases other with
      | written => exact absurd hu (hnot _ ho)
      | leftOut => exact absurd hu (hnot _ ho)
      | retry => exact absurd ⟨ho, hr⟩ hboth
      | waiting => rfl

end Journey

/-- A failed fetch leaves out no more than it takes off the budget. -/
theorem FolderSync.protocol_budget (s : FolderSync) (env : Env) (store : Store) :
    (s.passes env store .protocol).length + (s.batch env store .protocol).1.budget ≤ s.budget := by
  have hkept : s.nextSlice.2.budget = s.budget := by
    unfold nextSlice
    split
    · rfl
    split
    · rfl
    split <;> rfl
  have hnarrow : ∀ (rest : FolderSync) (slice : Slice),
      (rest.narrow slice).1.toList.length + (rest.narrow slice).2.budget ≤ rest.budget := by
    intro rest slice
    cases hb : rest.budget with
    | zero => simp [FolderSync.narrow_spent hb, hb]
    | succ budget =>
      have hleft : (rest.narrow slice).2.budget = budget := by
        simp only [narrow, hb]
        split
        · rfl
        split <;> rfl
      have hone : (rest.narrow slice).1.toList.length ≤ 1 := by
        cases (rest.narrow slice).1 <;> simp
      omega
  cases hn : s.nextSlice with
  | mk next rest =>
  have hrest : rest.budget = s.budget := by rw [← hkept, hn]
  cases next with
  | none => simp [passes, batch, hn, hrest]
  | some slice =>
    have hone := hnarrow rest slice
    simp only [passes, batch, hn, List.length_map]
    cases hrange : slice.range with
    | none =>
      have hempty := range_none hrange
      have hnone : (rest.narrow slice).1 = none := by
        unfold narrow
        split
        · rfl
        · simp only [hempty, List.length_nil, List.head?_nil]
          split
          · rfl
          split <;> rfl
      simp [hnone, hrest]
    | some range =>
      cases hcut : rest.narrow slice with
      | mk left narrowed =>
      rw [hcut] at hone
      cases left <;> simpa [hrest] using hone

/-- Fetches that all fail leave out at most a message for each unit of the budget. -/
theorem Journey.failing_passed {j : Journey} {b : Nat}
    (h : j.passed.length ≤ b ∧ ∀ s ∈ j.sync, j.passed.length + s.budget ≤ b)
    (envs : List Env) :
    (j.run (envs.map fun env => .turn env .protocol)).passed.length ≤ b := by
  induction envs generalizing j with
  | nil => exact h.1
  | cons env envs ih =>
    rw [List.map_cons, Journey.run_cons]
    refine ih ?_
    have hmove : j.move (.turn env .protocol) = j.turn env .protocol := rfl
    rw [hmove]
    cases hs : j.sync with
    | none =>
      rw [Journey.turn_none hs]
      exact ⟨h.1, fun s hc => by rw [hs] at hc; cases hc⟩
    | some s =>
      have hspent := s.protocol_budget env j.store
      have hbound := h.2 s hs
      rw [Journey.turn, hs]
      simp only [List.length_append]
      refine ⟨by omega, fun s' hs' => ?_⟩
      split at hs'
      · cases hs'
      · obtain rfl := Option.some.inj (Option.mem_def.1 hs')
        omega

/-- The one folder of the account, its first sync done on an empty server. -/
def doneFolder : Store :=
  (oneFolder.run (.batch plainSealer (numberedMint 'e' 'd')
    ⟨"mINBOX", 1, [], .down none true ⟨some 1, none, some 0⟩⟩)).1

def inboxRow : MailboxRow := ⟨"mINBOX", none, folderFacts "INBOX" (some "inbox") none⟩

/-- The new mail of the folder, up to `through`. -/
def newMail (through : Nat) : FolderSync where
  folder := "mINBOX"
  uidValidity := 1
  walk := .up
  gmail := false
  remaining := (FolderSync.span 1 through).reverse
  narrowed := []
  pending := none
  budget := NARROWING_BUDGET
  top := through
  answered := 0

def newMailJourney (through : Nat) : Journey :=
  ⟨some (newMail through), doneFolder, "mINBOX", .up, (newMail through).remaining.reverse, [], []⟩

theorem newMail_opened {through : Nat} (hpos : 1 ≤ through) (hgap : through ≤ REFRESH_GAP) :
    FolderSync.above inboxRow 1 through false [] = some (newMail through) := by
  have hof : FolderSync.of inboxRow .up = some { newMail 0 with remaining := [] } := rfl
  have hnear : through - 1 < REFRESH_GAP := by omega
  unfold FolderSync.above
  simp only [hof, Nat.max_self, if_pos hpos, if_pos hnear]
  rfl

theorem newMail_reached {through : Nat} (hpos : 1 ≤ through) (hgap : through ≤ REFRESH_GAP) :
    Reached (newMailJourney through) := by
  have hsync : ∀ r ∈ doneFolder.tables.sync.rows, r.uidNext = some 1 := by decide +kernel
  refine Reached.openUp (.nil : [].Pairwise (· > ·)) (fun r hr _ n hn => ?_)
    (newMail_opened hpos hgap)
  rw [hsync r hr] at hn
  obtain rfl := Option.some.inj hn
  exact Nat.le_refl _

/-- A host whose disk works. -/
def plainEnv : Env := ⟨plainSealer, numberedMint 'e' 'd', false⟩

end Huliho.Sync
