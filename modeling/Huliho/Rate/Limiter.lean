import Huliho.Lib.Record
import Huliho.Lib.Saturating
import Mathlib.Algebra.Order.Ring.Int

/-!
# The failure tracker

`RateLimiter` of `rate.rs`: what it remembers of each key, what a recorded failure and a recorded
success do to it, and how long it holds a list of keys. Times are milliseconds in signed words, and
`failures` is an unsigned word of 32 bits; additions saturate, the doubling of the delay is a shift
that keeps the low bits.
-/

namespace Huliho.Rate

/-- Failures tolerated per key before delays start. -/
def freeFailures : Nat := 3

/-- First delay once the free run is spent. -/
def initialDelayMs : Int := 2000

/-- Delays stop doubling here. -/
def maxDelayMs : Int := 900000

/-- A quiet hour clears a key's history. -/
def forgetAfterMs : Int := 3600000

/-- Past this many tracked keys, stale entries are swept on the next write. -/
def sweepThreshold : Nat := 10000

/-- The greatest unsigned word of 32 bits. -/
def maxU32 : Nat := 4294967295

structure Entry where
  failures : Nat
  lastFailureAt : Int
  blockedUntil : Int
deriving DecidableEq

abbrev RateLimiter := Record String Entry

/-- The initial delay shifted left by the failures beyond the free run. A shift by the width of the
word or more is refused, and only that. -/
def delayAfter (failures : Nat) : Int :=
  if failures < freeFailures + 1 then 0
  else if failures - (freeFailures + 1) < 64 then
    min (wrap (initialDelayMs * 2 ^ (failures - (freeFailures + 1)))) maxDelayMs
  else maxDelayMs

/-- A key's entry after one more failure. -/
def Entry.failed (entry : Option Entry) (now : Int) : Entry :=
  let entry := entry.getD ⟨0, now, 0⟩
  let before :=
    if forgetAfterMs ≤ saturatingSub now entry.lastFailureAt then 0 else entry.failures
  let failures := min (before + 1) maxU32
  ⟨failures, now, saturatingAdd now (delayAfter failures)⟩

/-- Whether the sweep keeps an entry. -/
def Entry.Fresh (entry : Entry) (now : Int) : Prop :=
  saturatingSub now entry.lastFailureAt < forgetAfterMs

instance (entry : Entry) (now : Int) : Decidable (entry.Fresh now) :=
  inferInstanceAs (Decidable (_ < _))

namespace RateLimiter

variable (entries : RateLimiter)

/-- Remaining block in milliseconds when any key is currently held. -/
def blockedFor (keys : List String) (now : Int) : Option Int :=
  (((keys.filterMap fun key => entries.get key).map fun entry =>
    saturatingSub entry.blockedUntil now).filter fun remaining => 0 < remaining).max?

/-- The entries a failure at `now` leaves when it finds too many. -/
def swept (now : Int) : RateLimiter :=
  if sweepThreshold ≤ entries.rows.length then entries.delete fun row => ¬ row.2.Fresh now
  else entries

/-- One more failure of each key, in order. -/
def failEach (keys : List String) (now : Int) : RateLimiter :=
  keys.foldl (fun entries key => Record.put entries key (Entry.failed (entries.get key) now))
    entries

/-- Records a failed attempt on every key. -/
def recordFailure (keys : List String) (now : Int) : RateLimiter :=
  (entries.swept now).failEach keys now

/-- Clears every key after a successful attempt. -/
def recordSuccess (keys : List String) : RateLimiter :=
  keys.foldl (fun entries key => Record.only entries (· ≠ key)) entries

end RateLimiter

/-- What the callers record. -/
inductive Event
  | failure (keys : List String) (now : Int)
  | success (keys : List String)
deriving DecidableEq

/-- The tracker after one event. -/
def record (entries : RateLimiter) : Event → RateLimiter
  | .failure keys now => entries.recordFailure keys now
  | .success keys => entries.recordSuccess keys

/-- The tracker after the events of a process, the oldest first. -/
def recorded (events : List Event) : RateLimiter := events.foldl record Table.empty

/-- The tracker after the same events had it never swept. -/
def recordedUnswept (events : List Event) : RateLimiter :=
  events.foldl (fun entries event =>
    match event with
    | .failure keys now => entries.failEach keys now
    | .success keys => entries.recordSuccess keys) Table.empty

end Huliho.Rate
