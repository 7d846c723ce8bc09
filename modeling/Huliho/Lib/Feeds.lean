import Mathlib.Data.List.Basic
import Mathlib.Data.List.Induction

/-!
# Readers fed in chunks

A reader takes a stream as it arrives, chunk by chunk, and may stop for good on what it reads. Two
readings are the `Same` when both stop for one reason or end in one state; what a reader that stopped
is left in does not matter. A `Feeder` is a reader to which a cut makes no difference: two chunks one
after the other are read as one. Then no way of cutting a stream does — **`Feeder.feedAll_flatten`**
— and a reader that stops has one item it stops at (`Feeder.exists_stopsAt`), in whatever chunk that
item arrives.
-/

namespace Huliho

variable {σ α ε : Type*}

/-- What reading leaves: the state, and what stopped the reader. -/
structure Fed (σ ε : Type*) where
  state : σ
  stopped : Option ε
deriving DecidableEq

/-- Reading on, unless the reader stopped. -/
def Fed.andThen (fed : Fed σ ε) (next : σ → Fed σ ε) : Fed σ ε :=
  match fed.stopped with
  | none => next fed.state
  | some _ => fed

namespace Fed

variable {fed : Fed σ ε} {next : σ → Fed σ ε} {e : ε}

theorem andThen_clean (h : fed.stopped = none) : fed.andThen next = next fed.state := by
  rw [andThen, h]

theorem andThen_stopped (h : fed.stopped = some e) : fed.andThen next = fed := by
  rw [andThen, h]

/-- Two readings that stop for the same reason or end in the same state. -/
structure Same (x y : Fed σ ε) : Prop where
  stopped : x.stopped = y.stopped
  state : x.stopped = none → x.state = y.state

theorem Same.refl (x : Fed σ ε) : x.Same x := ⟨rfl, fun _ => rfl⟩

theorem Same.trans {x y z : Fed σ ε} (h : x.Same y) (h' : y.Same z) : x.Same z :=
  ⟨h.stopped.trans h'.stopped, fun hx => (h.state hx).trans (h'.state (h.stopped ▸ hx))⟩

theorem Same.andThen {x y : Fed σ ε} (h : x.Same y) {f g : σ → Fed σ ε}
    (hfg : ∀ s, (f s).Same (g s)) : (x.andThen f).Same (y.andThen g) := by
  cases hx : x.stopped with
  | none =>
    rw [andThen_clean hx, andThen_clean (h.stopped ▸ hx), h.state hx]
    exact hfg _
  | some e =>
    rw [andThen_stopped hx, andThen_stopped (h.stopped ▸ hx)]
    exact h

theorem andThen_assoc (x : Fed σ ε) (f g : σ → Fed σ ε) :
    (x.andThen f).andThen g = x.andThen fun s => (f s).andThen g := by
  cases hx : x.stopped with
  | none => rw [andThen_clean hx, andThen_clean hx]
  | some e => rw [andThen_stopped hx, andThen_stopped hx, andThen_stopped hx]

end Fed

/-- A reader to which a cut makes no difference. -/
structure Feeder (σ α ε : Type*) where
  feed : σ → List α → Fed σ ε
  nil : ∀ s, feed s [] = ⟨s, none⟩
  append : ∀ s a b, (feed s (a ++ b)).Same ((feed s a).andThen fun s => feed s b)

namespace Feeder

variable (f : Feeder σ α ε) {s : σ} {a b : List α} {e : ε}

/-- The chunks one after the other, until one stops the reader. -/
def feedAll (s : σ) : List (List α) → Fed σ ε
  | [] => ⟨s, none⟩
  | chunk :: chunks => (f.feed s chunk).andThen fun s => feedAll s chunks

/-- **No way of cutting a stream makes a difference.** -/
theorem feedAll_flatten (s : σ) (chunks : List (List α)) :
    (f.feed s chunks.flatten).Same (f.feedAll s chunks) := by
  induction chunks generalizing s with
  | nil =>
    rw [List.flatten_nil, f.nil]
    exact Fed.Same.refl _
  | cons chunk chunks ih =>
    rw [List.flatten_cons]
    exact (f.append _ _ _).trans ((Fed.Same.refl _).andThen ih)

theorem stops_append (h : (f.feed s a).stopped = some e) :
    (f.feed s (a ++ b)).stopped = some e := by
  rw [(f.append s a b).stopped, Fed.andThen_stopped h, h]

theorem clean_of_append (h : (f.feed s (a ++ b)).stopped = none) :
    (f.feed s a).stopped = none := by
  cases ha : (f.feed s a).stopped with
  | none => rfl
  | some e => exact absurd (h.symm.trans (f.stops_append ha)) (by simp)

/-- The reader stops at one item of a stream: it reads all before it and stops on it. -/
structure StopsAt (s : σ) (stream : List α) (n : Nat) (e : ε) : Prop where
  lt : n < stream.length
  before : (f.feed s (stream.take n)).stopped = none
  on : (f.feed s (stream.take (n + 1))).stopped = some e

/-- **A reader that stops does so at an item.** -/
theorem exists_stopsAt {stream : List α} (h : (f.feed s stream).stopped = some e) :
    ∃ n, f.StopsAt s stream n e := by
  induction stream using List.reverseRecOn with
  | nil =>
    rw [f.nil] at h
    cases h
  | append_singleton stream x ih =>
    cases hs : (f.feed s stream).stopped with
    | none =>
      refine ⟨stream.length, by simp, ?_, ?_⟩
      · rwa [List.take_left]
      · rwa [List.take_of_length_le (by simp)]
    | some other =>
      obtain rfl := Option.some.inj ((f.stops_append hs).symm.trans h)
      obtain ⟨n, hlt, hbefore, hon⟩ := ih hs
      refine ⟨n, by simp only [List.length_append]; omega, ?_, ?_⟩
      · rwa [List.take_append_of_le_length (by omega)]
      · rwa [List.take_append_of_le_length (by omega)]

/-- A stream up to some length is read clean as long as it does not reach the item the reader stops
at. -/
theorem StopsAt.take_iff {stream : List α} {n : Nat} (h : f.StopsAt s stream n e) (m : Nat) :
    (f.feed s (stream.take m)).stopped = if m ≤ n then none else some e := by
  split
  · rename_i hm
    refine f.clean_of_append (b := (stream.take n).drop m) ?_
    have hjoin : stream.take m ++ (stream.take n).drop m = stream.take n := by
      conv_rhs => rw [← List.take_append_drop m (stream.take n), List.take_take,
        Nat.min_eq_left hm]
    rw [hjoin]
    exact h.before
  · rename_i hm
    have hjoin : stream.take (n + 1) ++ (stream.take m).drop (n + 1) = stream.take m := by
      conv_rhs => rw [← List.take_append_drop (n + 1) (stream.take m), List.take_take,
        Nat.min_eq_left (by omega)]
    rw [← hjoin]
    exact f.stops_append h.on

/-- The chunk that stops the reader is the one the item arrives in. -/
theorem StopsAt.chunks {chunks : List (List α)} {n : Nat} (h : f.StopsAt s chunks.flatten n e)
    (i : Nat) : (f.feedAll s (chunks.take i)).stopped =
      if (chunks.take i).flatten.length ≤ n then none else some e := by
  rw [← (f.feedAll_flatten s _).stopped, ← h.take_iff]
  have hjoin : chunks.flatten = (chunks.take i).flatten ++ (chunks.drop i).flatten := by
    rw [← List.flatten_append, List.take_append_drop]
  rw [hjoin, List.take_left]

end Feeder

end Huliho
