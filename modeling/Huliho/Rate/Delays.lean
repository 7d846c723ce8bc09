import Mathlib.Algebra.Order.Ring.Int
import Mathlib.Data.List.Chain
import Huliho.Rate.Limiter

/-!
# The delay after failures in a row

What a key was told is its `history`, and its failures **in a row** are the times at the end of it
with no success between and less than the forget time between neighbours. An entry `Tracks` them:
it stands on them, or it is gone and they have lapsed. One failure, one success and one sweep each
keep that (`tracks_failed`, `tracks_swept`, `tracks_record`), so the answers are a function of the
histories (`blockedFor_eq`), whether the tracker sweeps or not.

The delay is the doubled one, `due`, except where the shift pushes bits out of the word
(`delayAfter_eq_due`).
-/

namespace Huliho.Rate

/-! ## Failures in a row -/

/-- When a failure was recorded. -/
def Event.time? : Event → Option Int
  | .failure _ now => some now
  | .success _ => none

/-- The times of the failures, the oldest first. -/
def times (events : List Event) : List Int := events.filterMap Event.time?

/-- The events come at nondecreasing times. -/
def Clocked (events : List Event) : Prop :=
  (times events).Pairwise (· ≤ ·) ∧ ∀ t ∈ times events, InI64 t

instance (events : List Event) : Decidable (Clocked events) := inferInstanceAs (Decidable (_ ∧ _))

/-- What an event tells of a key: a failure at a time, or a success. -/
def Event.seen (key : String) : Event → List (Option Int)
  | .failure keys now => (keys.filter (· = key)).map fun _ => some now
  | .success keys => (keys.filter (· = key)).map fun _ => none

/-- What was told of a key, the oldest first. -/
def history (key : String) (events : List Event) : List (Option Int) :=
  events.flatMap (Event.seen key)

/-- The failures in a row at the end of a history, as many as there are. -/
def InARow (history : List (Option Int)) (row : List Int) : Prop :=
  ∃ before, history = before ++ row.map some ∧
    row.IsChain (fun a b => b - a < forgetAfterMs) ∧
    ∀ a, before.getLast? = some (some a) → ∃ b ∈ row.head?, forgetAfterMs ≤ b - a

/-- The number of failures in a row and the time of the last, after one more thing told. -/
def next : Option (Nat × Int) → Option Int → Option (Nat × Int)
  | _, none => none
  | none, some now => some (1, now)
  | some (n, last), some now =>
    if now - last < forgetAfterMs then some (n + 1, now) else some (1, now)

@[simp] theorem next_failure {n : Nat} {last now : Int} :
    next (some (n, last)) (some now) =
      some (if now - last < forgetAfterMs then n + 1 else 1, now) := by
  change (if now - last < forgetAfterMs then some (n + 1, now) else some (1, now)) = _
  split <;> rfl

def streak (history : List (Option Int)) : Option (Nat × Int) := history.foldl next none

theorem streak_concat {h : List (Option Int)} {told : Option Int} :
    streak (h ++ [told]) = next (streak h) told := by
  rw [streak, List.foldl_concat]
  rfl

theorem streak_last {h : List (Option Int)} {n : Nat} {last : Int}
    (hs : streak h = some (n, last)) : h.getLast? = some (some last) := by
  rcases List.eq_nil_or_concat' h with rfl | ⟨h, told, rfl⟩
  · cases hs
  · rw [List.getLast?_concat]
    rw [streak_concat] at hs
    cases told with
    | none => cases hs
    | some now =>
      unfold next at hs
      split at hs
      · cases hs
      · cases hs
        simp_all
      · split at hs <;> simp_all

theorem foldl_next {row : List Int} {n : Nat} {last : Int}
    (h : (last :: row).IsChain fun a b => b - a < forgetAfterMs) :
    (row.map some).foldl next (some (n, last)) =
      some (n + row.length, (last :: row).getLast (List.cons_ne_nil _ _)) := by
  induction row generalizing n last with
  | nil => rfl
  | cons now row ih =>
    obtain ⟨hgap, hrest⟩ := List.isChain_cons_cons.1 h
    have hnext : next (some (n, last)) (some now) = some (n + 1, now) := if_pos hgap
    rw [List.map_cons, List.foldl_cons, hnext, ih hrest, List.length_cons,
      List.getLast_cons (List.cons_ne_nil _ _)]
    congr 2
    omega

/-- **The count is the number of failures in a row.** -/
theorem streak_of_inARow {h : List (Option Int)} {row : List Int} (hr : InARow h row) :
    streak h = row.getLast?.map fun last => (row.length, last) := by
  obtain ⟨before, rfl, hchain, hmost⟩ := hr
  cases row with
  | nil =>
    rw [List.map_nil, List.append_nil]
    cases hs : streak before with
    | none => rfl
    | some pair =>
      obtain ⟨b, hb, -⟩ := hmost pair.2 (streak_last hs)
      cases hb
  | cons now row =>
    have hfirst : next (streak before) (some now) = some (1, now) := by
      cases hs : streak before with
      | none => rfl
      | some pair =>
        obtain ⟨b, hb, hgap⟩ := hmost pair.2 (streak_last hs)
        obtain rfl := Option.some.inj hb
        exact if_neg (not_lt.2 hgap)
    rw [List.map_cons, streak, List.foldl_append, List.foldl_cons]
    change (row.map some).foldl next (next (streak before) (some now)) = _
    rw [hfirst, foldl_next hchain, List.getLast?_eq_getLast_of_ne_nil (List.cons_ne_nil _ _),
      Option.map_some, List.length_cons, Nat.add_comm]

/-! ## The entry tracks them -/

/-- The entry after so many failures in a row. -/
def Entry.after (n : Nat) (last : Int) : Entry :=
  ⟨min n maxU32, last, saturatingAdd last (delayAfter (min n maxU32))⟩

/-- The entry stands on the failures in a row, or it is gone and they lapsed. -/
def Tracks (entry : Option Entry) (failures : Option (Nat × Int)) (now : Int) : Prop :=
  match failures with
  | none => entry = none
  | some (n, last) =>
    (entry = some (Entry.after n last) ∧ last ≤ now) ∨
      (entry = none ∧ last + forgetAfterMs ≤ now)

variable {entry : Option Entry} {failures : Option (Nat × Int)} {now later : Int}

theorem Tracks.mono (h : Tracks entry failures now) (hle : now ≤ later) :
    Tracks entry failures later := by
  cases failures with
  | none => exact h
  | some pair =>
    rcases h with ⟨he, hlast⟩ | ⟨he, hlapsed⟩
    · exact .inl ⟨he, by omega⟩
    · exact .inr ⟨he, by omega⟩

/-- The forget rule, read without the saturation. -/
theorem saturatingSub_lt_forget (last : Int) :
    saturatingSub now last < forgetAfterMs ↔ now - last < forgetAfterMs :=
  saturate_lt (by decide) (by decide)

theorem failed_none : Entry.failed none now = Entry.after 1 now := by
  unfold Entry.failed Entry.after
  simp only [Option.getD_none, ite_self]

theorem failed_after {n : Nat} {last : Int} :
    Entry.failed (some (Entry.after n last)) now =
      Entry.after (if now - last < forgetAfterMs then n + 1 else 1) now := by
  have hforget : saturatingSub now last < forgetAfterMs ↔ now - last < forgetAfterMs :=
    saturatingSub_lt_forget last
  have hlast : (Entry.after n last).lastFailureAt = last := rfl
  unfold Entry.failed
  simp only [Option.getD_some, hlast]
  by_cases hgap : now - last < forgetAfterMs
  · rw [if_pos hgap, if_neg (not_le.2 (hforget.2 hgap))]
    -- A count that saturated stays so.
    have hcount : min (min n maxU32 + 1) maxU32 = min (n + 1) maxU32 := by omega
    unfold Entry.after
    rw [hcount]
  · rw [if_neg hgap, if_pos (not_lt.1 fun hlt => hgap (hforget.1 hlt))]
    rfl

/-- **A failure counts one more, or the first.** -/
theorem tracks_failed (h : Tracks entry failures now) :
    Tracks (some (Entry.failed entry now)) (next failures (some now)) now := by
  cases failures with
  | none =>
    obtain rfl := h
    exact .inl ⟨congrArg some failed_none, le_refl now⟩
  | some pair =>
    obtain ⟨n, last⟩ := pair
    rw [next_failure]
    rcases h with ⟨rfl, -⟩ | ⟨rfl, hlapsed⟩
    · rw [failed_after]
      exact .inl ⟨rfl, le_refl now⟩
    · rw [if_neg (by omega), failed_none]
      exact .inl ⟨rfl, le_refl now⟩

/-- An entry the sweep drops has lapsed. -/
theorem tracks_dropped {entry : Entry} (h : Tracks (some entry) failures now)
    (hstale : ¬ entry.Fresh now) : Tracks none failures now := by
  cases failures with
  | none => cases h
  | some pair =>
    obtain ⟨n, last⟩ := pair
    rcases h with ⟨he, hlast⟩ | ⟨he, -⟩
    · obtain rfl := Option.some.inj he
      have hgap : ¬ now - last < forgetAfterMs :=
        fun hlt => hstale ((saturatingSub_lt_forget last).2 hlt)
      exact .inr ⟨rfl, by omega⟩
    · cases he

/-! ## Every key of a run -/

section Runs

variable {entries : RateLimiter} {key : String} {keys : List String} {events : List Event}

theorem tracks_swept (h : Tracks (entries.get key) failures now) :
    Tracks ((entries.swept now).get key) failures now := by
  unfold RateLimiter.swept
  split
  · rw [Record.get_delete]
    cases he : entries.get key with
    | none => rwa [he] at h
    | some entry =>
      rw [he] at h
      by_cases hfresh : entry.Fresh now
      · rwa [Option.filter_some, if_pos (by simpa using hfresh)]
      · rw [Option.filter_some, if_neg (by simpa using hfresh)]
        exact tracks_dropped h hfresh
  · exact h

theorem tracks_failEach (h : Tracks (entries.get key) failures now) :
    Tracks ((entries.failEach keys now).get key)
      ((Event.seen key (.failure keys now)).foldl next failures) now := by
  induction keys generalizing entries failures with
  | nil => exact h
  | cons k keys ih =>
    change Tracks ((RateLimiter.failEach (Record.put entries k _) keys now).get key) _ now
    by_cases hk : k = key
    · have hput := tracks_failed h
      have hseen : Event.seen key (.failure (k :: keys) now) =
          some now :: Event.seen key (.failure keys now) := by
        simp [Event.seen, hk]
      rw [hseen, List.foldl_cons]
      refine ih ?_
      rw [Record.get_put, if_pos hk.symm, hk]
      exact hput
    · have hseen : Event.seen key (.failure (k :: keys) now) =
          Event.seen key (.failure keys now) := by
        simp [Event.seen, hk]
      rw [hseen]
      refine ih ?_
      rwa [Record.get_put, if_neg (Ne.symm hk)]

theorem tracks_recordSuccess (h : Tracks (entries.get key) failures now) :
    Tracks ((entries.recordSuccess keys).get key)
      ((Event.seen key (.success keys)).foldl next failures) now := by
  induction keys generalizing entries failures with
  | nil => exact h
  | cons k keys ih =>
    change Tracks ((RateLimiter.recordSuccess (Record.only entries (· ≠ k)) keys).get key) _ now
    by_cases hk : k = key
    · have hseen : Event.seen key (.success (k :: keys)) =
          none :: Event.seen key (.success keys) := by
        simp [Event.seen, hk]
      rw [hseen, List.foldl_cons]
      refine ih ?_
      rw [Record.get_only, if_neg (not_not.2 hk.symm)]
      exact rfl
    · have hseen : Event.seen key (.success (k :: keys)) = Event.seen key (.success keys) := by
        simp [Event.seen, hk]
      rw [hseen]
      refine ih ?_
      rwa [Record.get_only, if_pos (Ne.symm hk)]

theorem times_concat {event : Event} :
    times (events ++ [event]) = times events ++ event.time?.toList := by
  rw [times, List.filterMap_append]
  cases h : event.time? <;> simp [times, h]

theorem history_concat {event : Event} :
    streak (history key (events ++ [event])) =
      (event.seen key).foldl next (streak (history key events)) := by
  simp [history, streak, List.foldl_append]

/-- A run whose events each keep what an entry tracks keeps it. -/
theorem tracks_run {step : RateLimiter → Event → RateLimiter}
    (hstep : ∀ entries event failures now, (∀ t ∈ event.time?, t = now) →
      Tracks (entries.get key) failures now →
        Tracks ((step entries event).get key) ((event.seen key).foldl next failures) now)
    (hclock : (times events).Pairwise (· ≤ ·)) (hnow : ∀ t ∈ times events, t ≤ now) :
    Tracks ((events.foldl step Table.empty).get key) (streak (history key events)) now := by
  induction events using List.reverseRecOn generalizing now with
  | nil => exact rfl
  | append_singleton events event ih =>
    rw [times_concat] at hclock hnow
    obtain ⟨hclock, -, hlast⟩ := List.pairwise_append.1 hclock
    rw [List.foldl_concat, history_concat]
    cases htime : event.time? with
    | none =>
      refine hstep _ event _ now (by simp [htime]) (ih hclock fun t ht => hnow t ?_)
      exact List.mem_append_left _ ht
    | some at_ =>
      rw [htime] at hlast hnow
      have hbefore : ∀ t ∈ times events, t ≤ at_ := fun t ht => hlast t ht at_ (by simp)
      have hat : at_ ≤ now := hnow at_ (by simp)
      refine Tracks.mono (hstep _ event _ at_ ?_ (ih hclock hbefore)) hat
      intro t ht
      rw [htime] at ht
      exact (Option.some.inj ht).symm

theorem tracks_recorded (hclock : Clocked events) (hnow : ∀ t ∈ times events, t ≤ now) :
    Tracks ((recorded events).get key) (streak (history key events)) now := by
  refine tracks_run (fun entries event failures now htime h => ?_) hclock.1 hnow
  cases event with
  | failure keys at_ =>
    obtain rfl := htime at_ rfl
    exact tracks_failEach (tracks_swept h)
  | success keys => exact tracks_recordSuccess h

theorem tracks_recordedUnswept (hclock : Clocked events) (hnow : ∀ t ∈ times events, t ≤ now) :
    Tracks ((recordedUnswept events).get key) (streak (history key events)) now := by
  refine tracks_run (fun entries event failures now htime h => ?_) hclock.1 hnow
  cases event with
  | failure keys at_ =>
    obtain rfl := htime at_ rfl
    exact tracks_failEach h
  | success keys => exact tracks_recordSuccess h

end Runs

/-! ## What the delay comes to -/

/-- The delay the failures in a row call for: none in the free run, then the first delay doubled
once a failure, up to the longest. -/
def due (n : Nat) : Int :=
  if n ≤ freeFailures then 0 else min (initialDelayMs * 2 ^ (n - (freeFailures + 1))) maxDelayMs

/-- No bit of the doubled delay is pushed out of the word, or the rest of it still exceeds the
longest delay. -/
def Unspoiled (n : Nat) : Prop := ¬ (57 ≤ n ∧ n ≤ 61) ∧ ¬ (63 ≤ n ∧ n ≤ 67)

instance (n : Nat) : Decidable (Unspoiled n) := inferInstanceAs (Decidable (_ ∧ _))

theorem due_of_large {n : Nat} (h : 13 ≤ n) : due n = maxDelayMs := by
  have hpow : (2 : Int) ^ 9 ≤ 2 ^ (n - (freeFailures + 1)) :=
    pow_le_pow_right₀ (by decide) (by unfold freeFailures; omega)
  unfold due
  rw [if_neg (by unfold freeFailures; omega), min_eq_right]
  unfold initialDelayMs maxDelayMs
  omega

theorem delayAfter_of_large {n : Nat} (h : 68 ≤ n) : delayAfter n = maxDelayMs := by
  unfold delayAfter freeFailures
  rw [if_neg (by omega), if_neg (by omega)]

/-- Up to the width of the word, the shift loses bits exactly at these counts, and what is left is
no delay at all. -/
theorem delayAfter_small {n : Nat} (h : n < 68) :
    (Unspoiled n → delayAfter n = due n) ∧ (¬ Unspoiled n → delayAfter n ≤ 0) := by
  revert n
  decide

/-- **The code's delay is the one called for exactly while the shift loses nothing.** -/
theorem delayAfter_eq_due {n : Nat} : delayAfter n = due n ↔ Unspoiled n := by
  by_cases hn : n < 68
  · obtain ⟨hwhole, hlossy⟩ := delayAfter_small hn
    refine ⟨fun heq => ?_, hwhole⟩
    by_contra hnot
    have hnone := hlossy hnot
    have hlarge : 13 ≤ n := by
      unfold Unspoiled at hnot
      omega
    rw [heq, due_of_large hlarge] at hnone
    exact absurd hnone (by decide)
  · rw [delayAfter_of_large (by omega), due_of_large (by omega)]
    exact iff_of_true rfl (by unfold Unspoiled; omega)

theorem delayAfter_le (n : Nat) : delayAfter n ≤ maxDelayMs := by
  unfold delayAfter
  split
  · decide
  · split
    · exact min_le_right _ _
    · exact le_refl _

/-- A lossy count asks for no delay. -/
theorem delayAfter_nonpos {n : Nat} (h : ¬ Unspoiled n) : delayAfter n ≤ 0 := by
  refine (delayAfter_small ?_).2 h
  unfold Unspoiled at h
  omega

/-- A count past the word's greatest is one past the width of the delay's. -/
theorem delayAfter_min (n : Nat) : delayAfter (min n maxU32) = delayAfter n := by
  by_cases h : n ≤ maxU32
  · rw [min_eq_left h]
  · have hmax : 68 ≤ maxU32 := by decide
    rw [min_eq_right (by omega), delayAfter_of_large hmax, delayAfter_of_large (by omega)]

theorem due_mono {m n : Nat} (h : m ≤ n) : due m ≤ due n := by
  unfold due
  by_cases hm : m ≤ freeFailures
  · rw [if_pos hm]
    split
    · exact le_refl 0
    · have hpow : (0 : Int) ≤ 2 ^ (n - (freeFailures + 1)) := pow_nonneg (by decide) _
      unfold initialDelayMs maxDelayMs
      omega
  · rw [if_neg hm, if_neg (by omega)]
    have hpow : (2 : Int) ^ (m - (freeFailures + 1)) ≤ 2 ^ (n - (freeFailures + 1)) :=
      pow_le_pow_right₀ (by decide) (by omega)
    unfold initialDelayMs maxDelayMs
    omega

theorem due_pos {n : Nat} (h : freeFailures < n) : 0 < due n := by
  have hfirst : due (freeFailures + 1) = initialDelayMs := by decide
  have hmono := due_mono (m := freeFailures + 1) h
  rw [hfirst] at hmono
  exact lt_of_lt_of_le (by decide) hmono

theorem due_le (n : Nat) : due n ≤ maxDelayMs := by
  unfold due
  split
  · decide
  · exact min_le_right _ _

/-! ## The answers -/

/-- A block is told while some of it is left. -/
def owed (remaining : Int) : Option Int := if 0 < remaining then some remaining else none

theorem owed_saturate {x : Int} (h : x ≤ maxI64) : owed (saturate x) = owed x := by
  unfold owed
  by_cases hpos : 0 < x
  · have hword : InI64 x := ⟨le_trans (by decide) (le_of_lt hpos), h⟩
    rw [saturate_of_inI64 hword]
  · rw [if_neg hpos, if_neg]
    intro hsat
    exact hpos ((lt_saturate (by decide) (by decide)).1 hsat)

/-- How long one entry holds its key. -/
def Entry.held (now : Int) (entry : Entry) : Option Int :=
  owed (saturatingSub entry.blockedUntil now)

theorem blockedFor_eq {entries : RateLimiter} {keys : List String} {now : Int} :
    entries.blockedFor keys now =
      (keys.filterMap fun key => (entries.get key).bind (Entry.held now)).max? := by
  unfold RateLimiter.blockedFor
  congr 1
  induction keys with
  | nil => rfl
  | cons key keys ih =>
    cases h : entries.get key with
    | none => simp [h, ih]
    | some entry =>
      by_cases hpos : 0 < saturatingSub entry.blockedUntil now
      · simp [h, ih, Entry.held, owed, hpos]
      · simp [h, ih, Entry.held, owed, hpos]

theorem blockedFor_singleton {entries : RateLimiter} {key : String} {now : Int} :
    entries.blockedFor [key] now = (entries.get key).bind (Entry.held now) := by
  rw [blockedFor_eq]
  cases h : (entries.get key).bind (Entry.held now) <;> simp [h]

/-- How long the failures in a row hold their key. -/
def holds (failures : Option (Nat × Int)) (now : Int) : Option Int :=
  failures.bind fun pair => owed (saturatingAdd pair.2 (delayAfter pair.1) - now)

/-- **An entry answers what the failures in a row come to**, standing or lapsed. -/
theorem held_of_tracks {entry : Option Entry} {failures : Option (Nat × Int)} {now : Int}
    (h : Tracks entry failures now) (hnow : InI64 now) :
    entry.bind (Entry.held now) = holds failures now := by
  cases failures with
  | none =>
    obtain rfl := h
    rfl
  | some pair =>
    obtain ⟨n, last⟩ := pair
    have hdelay := delayAfter_le n
    rcases h with ⟨rfl, hlast⟩ | ⟨rfl, hlapsed⟩
    · change owed (saturate (saturate (last + delayAfter (min n maxU32)) - now)) =
        owed (saturate (last + delayAfter n) - now)
      rw [delayAfter_min]
      refine owed_saturate ?_
      unfold saturate maxDelayMs InI64 minI64 maxI64 at *
      omega
    · change none = owed (saturate (last + delayAfter n) - now)
      rw [owed, if_neg]
      unfold saturate maxDelayMs forgetAfterMs InI64 minI64 maxI64 at *
      omega

/-- What the failures in a row call for at `now`. -/
def called (row : List Int) (now : Int) : Option Int :=
  row.getLast?.bind fun last => owed (last + due row.length - now)

/-- The tracker holds a key for as long as its failures in a row call for. -/
def Held (key : String) (events : List Event) : Prop :=
  ∀ row, InARow (history key events) row → ∀ now, (∀ t ∈ times events, t ≤ now) → InI64 now →
    (recorded events).blockedFor [key] now = called row now

/-- The failures in a row are none whose delay the shift spoils, and the block they call for ends
within the clock. -/
def Countable (row : List Int) : Prop :=
  ∀ last ∈ row.getLast?, Unspoiled row.length ∧ (freeFailures < row.length →
    last + due row.length ≤ maxI64)

section Answers

variable {events : List Event} {key : String} {row : List Int} {now : Int}

/-- The answer, whatever the delay comes to. -/
theorem blockedFor_recorded (hclock : Clocked events) (hrow : InARow (history key events) row)
    (hnow : ∀ t ∈ times events, t ≤ now) (hword : InI64 now) :
    (recorded events).blockedFor [key] now =
      row.getLast?.bind fun last => owed (saturatingAdd last (delayAfter row.length) - now) := by
  rw [blockedFor_singleton, held_of_tracks (tracks_recorded hclock hnow) hword,
    streak_of_inARow hrow, holds]
  cases row.getLast? <;> rfl

/-- The last of the failures in a row was recorded. -/
theorem mem_times_of_row (hrow : InARow (history key events) row) {last : Int}
    (hlast : row.getLast? = some last) : last ∈ times events := by
  obtain ⟨before, hhist, -, -⟩ := hrow
  have hmem : some last ∈ history key events := by
    rw [hhist]
    exact List.mem_append_right _ (List.mem_map.2 ⟨last, List.mem_of_getLast? hlast, rfl⟩)
  obtain ⟨event, hevent, hseen⟩ := List.mem_flatMap.1 hmem
  refine List.mem_filterMap.2 ⟨event, hevent, ?_⟩
  cases event with
  | failure keys at_ =>
    obtain ⟨-, -, heq⟩ := List.mem_map.1 hseen
    exact heq
  | success keys =>
    obtain ⟨-, -, heq⟩ := List.mem_map.1 hseen
    cases heq

theorem held_of_countable (hclock : Clocked events)
    (h : ∀ row, InARow (history key events) row → Countable row) : Held key events := by
  intro row hrow now hnow hword
  rw [blockedFor_recorded hclock hrow hnow hword, called]
  cases hlast : row.getLast? with
  | none => rfl
  | some last =>
    obtain ⟨hwhole, hfits⟩ := h row hrow last hlast
    have hin := hclock.2 last (mem_times_of_row hrow hlast)
    have hle := hnow last (mem_times_of_row hrow hlast)
    have hdue : saturatingAdd last (due row.length) = last + due row.length := by
      refine saturate_of_inI64 ⟨?_, ?_⟩
      · have hnonneg := due_mono (Nat.zero_le row.length)
        have hzero : due 0 = 0 := by decide
        have := hin.1
        omega
      · by_cases hfree : freeFailures < row.length
        · exact hfits hfree
        · rw [due, if_pos (not_lt.1 hfree)]
          have := hin.2
          omega
    change owed (saturatingAdd last (delayAfter row.length) - now) = _
    rw [delayAfter_eq_due.2 hwhole, hdue]
    rfl

/-- Right after the last of them, a block that is the one called for shows that they count. -/
theorem countable_of_held (hclock : Clocked events) (h : Held key events)
    (hrow : InARow (history key events) row)
    (hnow : ∀ last ∈ row.getLast?, ∀ t ∈ times events, t ≤ last) : Countable row := by
  intro last hlast
  have hin := hclock.2 last (mem_times_of_row hrow hlast)
  have hheld := h row hrow last (hnow last hlast) hin
  rw [blockedFor_recorded hclock hrow (hnow last hlast) hin, called] at hheld
  simp only [Option.mem_def.1 hlast, Option.bind_some] at hheld
  by_cases hfree : row.length ≤ freeFailures
  · exact ⟨by unfold freeFailures at hfree; unfold Unspoiled; omega, fun hlt => absurd hfree (by omega)⟩
  have hpos := due_pos (not_le.1 hfree)
  -- The block called for is one, so the code's is the same one.
  have hsome : owed (last + due row.length - last) = some (due row.length) := by
    rw [owed, add_sub_cancel_left, if_pos hpos]
  rw [hsome] at hheld
  unfold owed at hheld
  split at hheld
  swap
  · cases hheld
  have hsum := Option.some.inj hheld
  have hwhole : Unspoiled row.length := by
    by_contra hnot
    have hdelay := delayAfter_nonpos hnot
    unfold saturatingAdd saturate InI64 minI64 maxI64 at *
    omega
  refine ⟨hwhole, fun _ => ?_⟩
  rw [delayAfter_eq_due.2 hwhole] at hsum
  unfold saturatingAdd saturate InI64 minI64 maxI64 at *
  omega

theorem seen_eq {event : Event} {told : Option Int} (h : told ∈ event.seen key) :
    told = event.time? := by
  cases event with
  | failure keys now =>
    obtain ⟨-, -, heq⟩ := List.mem_map.1 h
    exact heq.symm
  | success keys =>
    obtain ⟨-, -, heq⟩ := List.mem_map.1 h
    exact heq.symm

theorem Clocked.before {before : List Event} (h : Clocked events) (hb : before <+: events) :
    Clocked before := by
  obtain ⟨after, rfl⟩ := hb
  have htimes : times (before ++ after) = times before ++ times after := List.filterMap_append
  rw [Clocked, htimes] at h
  exact ⟨(List.pairwise_append.1 h.1).1, fun t ht => h.2 t (List.mem_append_left _ ht)⟩

/-- If every block of a run is the one called for, every row of failures in it counts. -/
theorem countable_of_held_run (hclock : Clocked events)
    (h : ∀ before, before <+: events → Held key before) :
    ∀ row, InARow (history key events) row → Countable row := by
  induction events using List.reverseRecOn with
  | nil =>
    intro row hrow last hlast
    cases mem_times_of_row hrow hlast
  | append_singleton events event ih =>
    intro row hrow
    have hb : events <+: events ++ [event] := List.prefix_append _ _
    cases hseen : event.seen key with
    | nil =>
      have hhist : history key (events ++ [event]) = history key events := by
        rw [history, List.flatMap_append]
        simp [history, hseen]
      rw [hhist] at hrow
      exact ih (hclock.before hb) (fun before hbb => h before (hbb.trans hb)) row hrow
    | cons told rest =>
      refine countable_of_held hclock (h _ (List.prefix_refl _)) hrow fun last hlast => ?_
      -- The row ends in what this event told.
      have hstreak := streak_of_inARow hrow
      rw [Option.mem_def.1 hlast] at hstreak
      have hend := streak_last hstreak
      have hhist : history key (events ++ [event]) = history key events ++ (told :: rest) := by
        rw [history, List.flatMap_append]
        simp [history, hseen]
      rw [hhist, List.getLast?_append_of_ne_nil _ (List.cons_ne_nil _ _)] at hend
      have htime : some last = event.time? :=
        seen_eq (hseen ▸ List.mem_of_getLast? hend : some last ∈ event.seen key)
      have hsorted := hclock.1
      rw [times_concat, ← htime] at hsorted
      rw [times_concat, ← htime]
      intro t ht
      rcases List.mem_append.1 ht with ht | ht
      · exact (List.pairwise_append.1 hsorted).2.2 t ht last (by simp)
      · exact le_of_eq (by simpa using ht)

/-- Swept or not, the tracker answers the same. -/
theorem blockedFor_unswept (hclock : Clocked events) (hnow : ∀ t ∈ times events, t ≤ now)
    (hword : InI64 now) (keys : List String) :
    (recorded events).blockedFor keys now = (recordedUnswept events).blockedFor keys now := by
  rw [blockedFor_eq, blockedFor_eq]
  congr 1
  refine List.filterMap_congr fun key _ => ?_
  rw [held_of_tracks (tracks_recorded hclock hnow) hword,
    held_of_tracks (tracks_recordedUnswept hclock hnow) hword]

end Answers

/-- **The blocks of a run are the ones its failures in a row call for exactly while no count of
them is one whose shift loses bits, and no block ends past the clock.** The delay called for never
shrinks and is one past the free run, the code's delay is it at the counts whose shift loses
nothing, and the sweep changes no answer. -/
theorem held_iff_countable {events : List Event} (hclock : Clocked events) (key : String) :
    ((∀ before, before <+: events → Held key before) ↔
      ∀ before, before <+: events → ∀ row, InARow (history key before) row → Countable row) ∧
    (∀ m n, m ≤ n → due m ≤ due n) ∧ (∀ n, freeFailures < n → 0 < due n) ∧
    (∀ n, delayAfter n = due n ↔ Unspoiled n) ∧
    (∀ keys now, (∀ t ∈ times events, t ≤ now) → InI64 now →
      (recorded events).blockedFor keys now = (recordedUnswept events).blockedFor keys now) := by
  refine ⟨⟨fun h before hb => ?_, fun h before hb => ?_⟩, fun _ _ => due_mono, fun _ => due_pos,
    fun _ => delayAfter_eq_due, fun keys now hnow hword => ?_⟩
  · exact countable_of_held_run (hclock.before hb) fun b hbb => h b (hbb.trans hb)
  · exact held_of_countable (hclock.before hb) (h before hb)
  · exact blockedFor_unswept hclock hnow hword keys

/-- Sign-ins refused four times at once hold the name as called for. -/
theorem held_iff_countable_four :
    Held "login:mira" (List.replicate 4 (.failure ["login:mira"] 1000)) := by
  have hclock : Clocked (List.replicate 4 (.failure ["login:mira"] 1000)) := by decide
  refine (held_iff_countable hclock "login:mira").1.2 (fun before hb row hrow last hlast => ?_) _
    (List.prefix_refl _)
  have hlen : row.length ≤ 4 := by
    obtain ⟨rest, hhist, -, -⟩ := hrow
    obtain ⟨after, hafter⟩ := hb
    have hall : (history "login:mira" (before ++ after)).length = 4 := by rw [hafter]; decide
    rw [history, List.flatMap_append, List.length_append] at hall
    have hpart := congrArg List.length hhist
    rw [history, List.length_append, List.length_map] at hpart
    omega
  have htime : last = 1000 := by
    have hmem := mem_times_of_row hrow hlast
    have hsub : times before ⊆ times (List.replicate 4 (.failure ["login:mira"] 1000)) :=
      List.filterMap_subset _ hb.subset
    simpa [times, Event.time?] using hsub hmem
  refine ⟨by unfold Unspoiled; omega, fun _ => ?_⟩
  have hdue := due_le row.length
  unfold maxDelayMs maxI64 at *
  omega

/-- Fifty-seven failures at one time leave the key free, where they call for the longest delay. -/
theorem free_after_fifty_seven :
    Clocked (List.replicate 57 (.failure ["login:mira"] 0)) ∧
    InARow (history "login:mira" (List.replicate 57 (.failure ["login:mira"] 0)))
      (List.replicate 57 0) ∧
    called (List.replicate 57 0) 0 = some maxDelayMs ∧ delayAfter 57 < 0 ∧
    (recorded (List.replicate 57 (.failure ["login:mira"] 0))).blockedFor ["login:mira"] 0 =
      none := by
  have hclock : Clocked (List.replicate 57 (.failure ["login:mira"] 0)) := by decide
  have hrow : InARow (history "login:mira" (List.replicate 57 (.failure ["login:mira"] 0)))
      (List.replicate 57 0) := ⟨[], by decide, by decide, by simp⟩
  refine ⟨hclock, hrow, by decide, by decide, ?_⟩
  rw [blockedFor_recorded hclock hrow (by decide) (by decide)]
  decide

end Huliho.Rate
