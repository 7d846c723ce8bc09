import Huliho.Lib.Meters
import Huliho.Rate.Limiter

/-!
# The allowance

`Rate`, `Bucket` and `Buckets` of `rate.rs`: one bucket of tokens a key, full when first seen, and
one token taken at a time. What a bucket holds together with the time since its last refill is a
`level` of milliseconds; a refill keeps it (`refill_eq`), a take pays one interval of it, time adds
no more than itself. So the takes a key was granted are those of a meter (`metered`).
-/

namespace Huliho.Rate

/-- Milliseconds of a minute. -/
def msPerMinute : Nat := 60000

/-- A refilling allowance: `burst` tokens at most, `perMinute` of them back over a minute. -/
structure Rate where
  burst : Nat
  perMinute : Nat
  burst_le : burst ≤ maxU32

namespace Rate

variable (rate : Rate)

/-- Milliseconds one token takes to come back, one at least. -/
def msPerToken : Int := max (msPerMinute / max rate.perMinute 1 : Nat) 1

end Rate

structure Bucket where
  tokens : Int
  /-- When the bucket last gained a token. -/
  refilledAt : Int
deriving DecidableEq

namespace Bucket

variable (bucket : Bucket) (burst msPerToken now : Int)

/-- Tokens gained since the last refill. -/
def gained : Int := max (saturatingSub now bucket.refilledAt) 0 / msPerToken

def refill : Bucket :=
  if 0 < bucket.gained msPerToken now then
    ⟨min (saturatingAdd bucket.tokens (bucket.gained msPerToken now)) burst,
      saturatingAdd bucket.refilledAt (saturatingMul (bucket.gained msPerToken now) msPerToken)⟩
  else bucket

end Bucket

abbrev Buckets := Record String Bucket

namespace Rate

variable (rate : Rate) (entries : Buckets)

/-- Whether the sweep keeps a bucket: it is not back to full. -/
def Keeps (bucket : Bucket) (now : Int) : Prop :=
  saturatingAdd bucket.tokens (bucket.gained rate.msPerToken now) < rate.burst

instance (bucket : Bucket) (now : Int) : Decidable (rate.Keeps bucket now) :=
  inferInstanceAs (Decidable (_ < _))

/-- The buckets a take at `now` leaves when it finds too many. -/
def swept (now : Int) : Buckets :=
  if sweepThreshold ≤ entries.rows.length then
    entries.delete fun row => ¬ rate.Keeps row.2 now
  else entries

/-- The key's bucket as a take at `now` finds it, a new one full. -/
def found (key : String) (now : Int) : Bucket :=
  (((rate.swept entries now).get key).getD ⟨rate.burst, now⟩).refill rate.burst rate.msPerToken now

/-- One token from the key's bucket at `now`, or the milliseconds until the next one. -/
def take (key : String) (now : Int) : Except Int Unit × Buckets :=
  let bucket := rate.found entries key now
  if bucket.tokens ≤ 0 then
    (.error (max (saturatingSub (saturatingAdd bucket.refilledAt rate.msPerToken) now) 1),
      Record.put (rate.swept entries now) key bucket)
  else
    (.ok (), Record.put (rate.swept entries now) key { bucket with tokens := bucket.tokens - 1 })

/-- The buckets after takes, the oldest first. -/
def after (takes : List (String × Int)) : Buckets :=
  takes.foldl (fun entries take => (rate.take entries take.1 take.2).2) Table.empty

/-- What a take is answered after others. -/
def answer (takes : List (String × Int)) (key : String) (now : Int) : Except Int Unit :=
  (rate.take (rate.after takes) key now).1

/-- When a key is granted a token by takes on some buckets, the oldest first. -/
def grantedFrom (key : String) : Buckets → List (String × Int) → List Int
  | _, [] => []
  | entries, (k, now) :: takes =>
    (if k = key ∧ (rate.take entries k now).1 = .ok () then [now] else []) ++
      grantedFrom key (rate.take entries k now).2 takes

/-- When a key was granted a token. -/
def granted (key : String) (takes : List (String × Int)) : List Int :=
  rate.grantedFrom key Table.empty takes

end Rate

/-! ## Levels -/

/-- A bucket as the takes leave it at `now`. -/
structure Bucket.Sound (burst : Nat) (now : Int) (bucket : Bucket) : Prop where
  tokens_nonneg : 0 ≤ bucket.tokens
  tokens_le : bucket.tokens ≤ burst
  refilledAt_nonneg : 0 ≤ bucket.refilledAt
  refilledAt_le : bucket.refilledAt ≤ now

/-- The tokens and the time since the last refill, in milliseconds. -/
def Bucket.held (msPerToken now : Int) (bucket : Bucket) : Int :=
  bucket.tokens * msPerToken + (now - bucket.refilledAt)

/-- What is held of it: past the burst, only the part of an interval. -/
def clipped (burst : Nat) (msPerToken held : Int) : Int :=
  min held (burst * msPerToken + held % msPerToken)

section Levels

variable {burst : Nat} {msPerToken now later held : Int} {bucket : Bucket}

theorem clipped_add_le (hms : 0 < msPerToken) {d : Int} (hd : 0 ≤ d) :
    clipped burst msPerToken (held + d) ≤ clipped burst msPerToken held + d := by
  have hpart := Int.emod_nonneg held (ne_of_gt hms)
  have hmod : (held + d) % msPerToken ≤ held % msPerToken + d := by
    have hcut := Int.ediv_mul_add_emod (held % msPerToken + d) msPerToken
    have hwhole : 0 ≤ (held % msPerToken + d) / msPerToken * msPerToken :=
      Int.mul_nonneg (Int.ediv_nonneg (by omega) (le_of_lt hms)) (le_of_lt hms)
    rw [← Int.emod_add_emod]
    omega
  unfold clipped
  omega

theorem le_clipped_add (hms : 0 < msPerToken) {d : Int} :
    min (burst * msPerToken) (clipped burst msPerToken held + d) ≤
      clipped burst msPerToken (held + d) := by
  have hpart := Int.emod_nonneg (held + d) (ne_of_gt hms)
  unfold clipped
  omega

theorem clipped_le (hms : 0 < msPerToken) :
    clipped burst msPerToken held ≤ burst * msPerToken + msPerToken - 1 := by
  have hpart := Int.emod_lt_of_pos held hms
  unfold clipped
  omega

/-- Whole tokens within the burst and a part of an interval are not clipped. -/
theorem clipped_of_le {tokens part : Int} (htokens : tokens ≤ burst) (hpart : 0 ≤ part)
    (hlt : part < msPerToken) :
    clipped burst msPerToken (tokens * msPerToken + part) = tokens * msPerToken + part := by
  have hmod : (tokens * msPerToken + part) % msPerToken = part := by
    rw [Int.add_comm, Int.add_mul_emod_self_right, Int.emod_eq_of_lt hpart hlt]
  have hle : tokens * msPerToken ≤ burst * msPerToken :=
    Int.mul_le_mul_of_nonneg_right htokens (by omega)
  rw [clipped, hmod]
  omega

/-- What is held comes in whole tokens, no more than the burst, and a part of an interval. -/
theorem clipped_held (hms : 0 < msPerToken) :
    clipped burst msPerToken (bucket.held msPerToken now) =
      min (bucket.tokens + (now - bucket.refilledAt) / msPerToken) burst * msPerToken +
        (now - bucket.refilledAt) % msPerToken := by
  have hcut := Int.ediv_mul_add_emod (now - bucket.refilledAt) msPerToken
  have hpart := Int.emod_nonneg (now - bucket.refilledAt) (ne_of_gt hms)
  have hlt := Int.emod_lt_of_pos (now - bucket.refilledAt) hms
  have hheld : bucket.held msPerToken now =
      (bucket.tokens + (now - bucket.refilledAt) / msPerToken) * msPerToken +
        (now - bucket.refilledAt) % msPerToken := by
    rw [Bucket.held, Int.add_mul]
    omega
  rw [hheld]
  by_cases hfull : bucket.tokens + (now - bucket.refilledAt) / msPerToken ≤ burst
  · rw [min_eq_left hfull, clipped_of_le hfull hpart hlt]
  · have hmore : (burst : Int) * msPerToken ≤
        (bucket.tokens + (now - bucket.refilledAt) / msPerToken) * msPerToken :=
      Int.mul_le_mul_of_nonneg_right (by omega) (by omega)
    have hmod : ((bucket.tokens + (now - bucket.refilledAt) / msPerToken) * msPerToken +
        (now - bucket.refilledAt) % msPerToken) % msPerToken =
          (now - bucket.refilledAt) % msPerToken := by
      rw [Int.add_comm, Int.add_mul_emod_self_right, Int.emod_emod]
    rw [min_eq_right (by omega), clipped, hmod]
    omega

theorem gained_eq (hs : bucket.Sound burst now) (hnow : now ≤ maxI64) :
    bucket.gained msPerToken now = (now - bucket.refilledAt) / msPerToken := by
  obtain ⟨-, -, hnonneg, hle⟩ := hs
  have hsub : saturatingSub now bucket.refilledAt = now - bucket.refilledAt := by
    refine saturate_of_inI64 ⟨le_trans (by decide) (Int.sub_nonneg_of_le hle), ?_⟩
    omega
  rw [Bucket.gained, hsub, max_eq_left (by omega)]

/-- **A refill turns the intervals into tokens and keeps the part of one.** -/
theorem refill_eq (hs : bucket.Sound burst now) (hms : 0 < msPerToken) (hnow : now ≤ maxI64)
    (hburst : burst ≤ maxU32) :
    bucket.refill burst msPerToken now =
      ⟨min (bucket.tokens + (now - bucket.refilledAt) / msPerToken) burst,
        now - (now - bucket.refilledAt) % msPerToken⟩ := by
  have hcut := Int.ediv_mul_add_emod (now - bucket.refilledAt) msPerToken
  have hpart := Int.emod_nonneg (now - bucket.refilledAt) (ne_of_gt hms)
  have hnonneg : 0 ≤ (now - bucket.refilledAt) / msPerToken :=
    Int.ediv_nonneg (by have := hs.refilledAt_le; omega) (le_of_lt hms)
  obtain ⟨htokens, hmax, hat, hle⟩ := hs
  have hword : (burst : Int) ≤ maxI64 := by
    have : (maxU32 : Int) ≤ maxI64 := by decide
    omega
  unfold Bucket.refill
  rw [gained_eq ⟨htokens, hmax, hat, hle⟩ hnow]
  split
  · rename_i hgained
    have hmul : saturatingMul ((now - bucket.refilledAt) / msPerToken) msPerToken =
        (now - bucket.refilledAt) / msPerToken * msPerToken := by
      refine saturate_of_inI64 ⟨le_trans (by decide) (Int.mul_nonneg hnonneg (le_of_lt hms)), ?_⟩
      omega
    have hsum : saturatingAdd bucket.refilledAt ((now - bucket.refilledAt) / msPerToken * msPerToken)
        = bucket.refilledAt + (now - bucket.refilledAt) / msPerToken * msPerToken := by
      refine saturate_of_inI64 ⟨le_trans (by decide) (Int.add_nonneg hat ?_), ?_⟩
      · exact Int.mul_nonneg hnonneg (le_of_lt hms)
      · omega
    have htop : saturatingAdd bucket.tokens ((now - bucket.refilledAt) / msPerToken) =
        min (bucket.tokens + (now - bucket.refilledAt) / msPerToken) maxI64 :=
      saturate_of_le (le_trans (by decide) (Int.add_nonneg htokens hnonneg))
    rw [hmul, hsum, htop, Bucket.mk.injEq]
    exact ⟨by omega, by omega⟩
  · rename_i hnone
    have hzero : (now - bucket.refilledAt) / msPerToken = 0 := by omega
    rw [hzero, Int.zero_mul] at hcut
    rw [hzero, Int.add_zero, min_eq_left hmax]
    have hat : now - (now - bucket.refilledAt) % msPerToken = bucket.refilledAt := by omega
    rw [hat]

end Levels

/-! ## A key's level -/

/-- The level of a key's bucket at `now`; a key without one stands at a full bucket. -/
def Rate.level (rate : Rate) (now : Int) : Option Bucket → Int
  | none => rate.burst * rate.msPerToken
  | some bucket => clipped rate.burst rate.msPerToken (bucket.held rate.msPerToken now)

/-- What the takes so far make of one key: its bucket is sound, and its level is a meter's. -/
structure Rate.Metering (rate : Rate) (taken : List Int) (now : Int) (entry : Option Bucket) :
    Prop where
  sound : ∀ bucket ∈ entry, bucket.Sound rate.burst now
  metered : Metered rate.msPerToken (rate.burst * rate.msPerToken)
    (rate.burst * rate.msPerToken + rate.msPerToken - 1) taken now (rate.level now entry)

section Steps

variable {rate : Rate} {taken : List Int} {now later : Int} {entry : Option Bucket}

theorem msPerToken_pos (rate : Rate) : 0 < rate.msPerToken := lt_of_lt_of_le (by decide) (le_max_right _ _)

theorem full_nonneg (rate : Rate) : 0 ≤ (rate.burst : Int) * rate.msPerToken :=
  Int.mul_nonneg (Int.natCast_nonneg _) (le_of_lt (msPerToken_pos rate))

@[simp] theorem level_none : rate.level now none = rate.burst * rate.msPerToken := rfl

@[simp] theorem level_some {bucket : Bucket} : rate.level now (some bucket) =
    clipped rate.burst rate.msPerToken (bucket.held rate.msPerToken now) := rfl

theorem Rate.Metering.advance (h : rate.Metering taken now entry) (hle : now ≤ later) :
    rate.Metering taken later entry := by
  have hms := msPerToken_pos rate
  refine ⟨fun bucket hb => ?_, ?_⟩
  · obtain ⟨htokens, hmax, hat, hpast⟩ := h.sound bucket hb
    exact ⟨htokens, hmax, hat, le_trans hpast hle⟩
  · have hm := h.metered
    cases entry with
    | none =>
      have hfull := full_nonneg rate
      refine hm.rest hle ?_ ?_ ?_ <;> simp only [level_none] <;> omega
    | some bucket =>
      have hheld : bucket.held rate.msPerToken later =
          bucket.held rate.msPerToken now + (later - now) := by
        unfold Bucket.held
        omega
      refine hm.rest hle ?_ ?_ ?_ <;> simp only [level_some] <;> rw [hheld]
      · exact clipped_add_le hms (by omega)
      · exact le_clipped_add hms
      · exact clipped_le hms

/-- A bucket the sweep drops is full, and so is the one that comes for it. -/
theorem Rate.Metering.dropped {bucket : Bucket} (h : rate.Metering taken now (some bucket))
    (hnow : now ≤ maxI64) (hdrop : ¬ rate.Keeps bucket now) : rate.Metering taken now none := by
  have hms := msPerToken_pos rate
  have hs := h.sound bucket rfl
  refine ⟨by simp, h.metered.rest (le_refl now) ?_ ?_ ?_⟩
  · have hfull : (rate.burst : Int) ≤
        bucket.tokens + (now - bucket.refilledAt) / rate.msPerToken := by
      unfold Rate.Keeps at hdrop
      rw [gained_eq hs hnow] at hdrop
      have hburst := rate.burst_le
      by_contra hlt
      refine hdrop ((saturate_lt ?_ ?_).2 (not_le.1 hlt)) <;> unfold minI64 maxI64 maxU32 at * <;>
        omega
    have hpart := Int.emod_nonneg (now - bucket.refilledAt) (ne_of_gt hms)
    rw [level_none, level_some, clipped_held hms, min_eq_right hfull]
    omega
  · rw [level_none]
    exact min_le_left _ _
  · rw [level_none]
    omega

/-- The bucket a take finds for its key, as a refill leaves it: whole tokens and a part of an
interval, the level unchanged. -/
theorem Rate.Metering.refilled (h : rate.Metering taken now entry) (hnonneg : 0 ≤ now)
    (hnow : now ≤ maxI64) :
    ∃ tokens part : Int, 0 ≤ tokens ∧ tokens ≤ rate.burst ∧ 0 ≤ part ∧ part < rate.msPerToken ∧
      part ≤ now ∧
      (entry.getD ⟨rate.burst, now⟩).refill rate.burst rate.msPerToken now =
        ⟨tokens, now - part⟩ ∧
      rate.level now entry = tokens * rate.msPerToken + part := by
  have hms := msPerToken_pos rate
  have hburst := rate.burst_le
  cases entry with
  | none =>
    have hs : (⟨rate.burst, now⟩ : Bucket).Sound rate.burst now :=
      ⟨Int.natCast_nonneg _, le_refl _, hnonneg, le_refl _⟩
    refine ⟨rate.burst, 0, Int.natCast_nonneg _, le_refl _, le_refl _, hms, hnonneg, ?_, by simp⟩
    rw [Option.getD_none, refill_eq hs hms hnow hburst]
    simp
  | some bucket =>
    have hs := h.sound bucket rfl
    have hwhole : 0 ≤ (now - bucket.refilledAt) / rate.msPerToken :=
      Int.ediv_nonneg (by have := hs.refilledAt_le; omega) (le_of_lt hms)
    have hpart := Int.emod_nonneg (now - bucket.refilledAt) (ne_of_gt hms)
    have hcut := Int.ediv_mul_add_emod (now - bucket.refilledAt) rate.msPerToken
    have hgone := Int.mul_nonneg hwhole (le_of_lt hms)
    have htokens := hs.tokens_nonneg
    have hat := hs.refilledAt_nonneg
    refine ⟨min (bucket.tokens + (now - bucket.refilledAt) / rate.msPerToken) rate.burst,
      (now - bucket.refilledAt) % rate.msPerToken, by omega, min_le_right _ _, hpart,
      Int.emod_lt_of_pos _ hms, by omega, ?_, clipped_held hms⟩
    rw [Option.getD_some]
    exact refill_eq hs hms hnow hburst

theorem Rate.Metering.swept {entries : Buckets} {key : String}
    (h : rate.Metering taken now (entries.get key)) (hnow : now ≤ maxI64) :
    rate.Metering taken now ((rate.swept entries now).get key) := by
  unfold Rate.swept
  split
  · rw [Record.get_delete]
    cases he : entries.get key with
    | none =>
      rw [he] at h
      exact h
    | some bucket =>
      rw [he] at h
      by_cases hkeep : rate.Keeps bucket now
      · rw [Option.filter_some, if_pos (by simpa using hkeep)]
        exact h
      · rw [Option.filter_some, if_neg (by simpa using hkeep)]
        exact h.dropped hnow hkeep
  · exact h

/-- **What a take does to its key's bucket**: with a token left it pays an interval of the level,
else it leaves the level and names the rest of the interval. -/
theorem Rate.Metering.take_eq {entries : Buckets} {key : String}
    (h : rate.Metering taken now (entries.get key)) (hnonneg : 0 ≤ now) (hnow : now ≤ maxI64) :
    ∃ part : Int, 0 ≤ part ∧ part < rate.msPerToken ∧ part ≤ now ∧
      ((rate.level now ((rate.swept entries now).get key) = part ∧
        (rate.take entries key now).1 = .error (max (saturatingSub (saturatingAdd (now - part)
          rate.msPerToken) now) 1) ∧
        (rate.take entries key now).2.get key = some ⟨0, now - part⟩) ∨
      ∃ left : Nat, left < rate.burst ∧
        rate.level now ((rate.swept entries now).get key) = (left + 1) * rate.msPerToken + part ∧
        (rate.take entries key now).1 = .ok () ∧
        (rate.take entries key now).2.get key = some ⟨left, now - part⟩) := by
  obtain ⟨tokens, part, htokens, hmax, hpart, hlt, hpast, hfound, hlevel⟩ :=
    (h.swept hnow).refilled hnonneg hnow
  refine ⟨part, hpart, hlt, hpast, ?_⟩
  unfold Rate.take
  simp only [Rate.found, hfound]
  by_cases hempty : tokens ≤ 0
  · obtain rfl : tokens = 0 := by omega
    refine .inl ⟨by simpa using hlevel, ?_, ?_⟩
    · rw [if_pos hempty]
    · rw [if_pos hempty, Record.get_put, if_pos rfl]
  · refine .inr ⟨(tokens - 1).toNat, by omega, ?_, ?_, ?_⟩
    · have hcast : ((tokens - 1).toNat : Int) + 1 = tokens := by omega
      rw [hlevel, hcast]
    · rw [if_neg hempty]
    · have hcast : ((tokens - 1).toNat : Int) = tokens - 1 := by omega
      rw [if_neg hempty, Record.get_put, if_pos rfl, hcast]

theorem take_other {entries : Buckets} {key other : String} (h : other ≠ key) :
    (rate.take entries other now).2.get key = (rate.swept entries now).get key := by
  unfold Rate.take
  dsimp only
  split
  · rw [Record.get_put, if_neg (Ne.symm h)]
  · rw [Record.get_put, if_neg (Ne.symm h)]

/-- The level of whole tokens and a part of an interval. -/
theorem level_parts {tokens part : Int} (htokens : tokens ≤ rate.burst) (hpart : 0 ≤ part)
    (hlt : part < rate.msPerToken) :
    rate.level now (some ⟨tokens, now - part⟩) = tokens * rate.msPerToken + part := by
  have hheld : (⟨tokens, now - part⟩ : Bucket).held rate.msPerToken now =
      tokens * rate.msPerToken + part := by
    change tokens * rate.msPerToken + (now - (now - part)) = _
    omega
  rw [level_some, hheld, clipped_of_le htokens hpart hlt]

theorem sound_parts {burst : Nat} {tokens part : Int} (hnonneg : 0 ≤ tokens)
    (htokens : tokens ≤ burst) (hpart : 0 ≤ part) (hpast : part ≤ now) :
    (⟨tokens, now - part⟩ : Bucket).Sound burst now :=
  ⟨hnonneg, htokens, Int.sub_nonneg_of_le hpast, Int.sub_le_self now hpart⟩

theorem Rate.Metering.take {entries : Buckets} {key other : String}
    (h : rate.Metering taken now (entries.get key)) (hnonneg : 0 ≤ now) (hnow : now ≤ maxI64) :
    rate.Metering (taken ++ if other = key ∧ (rate.take entries other now).1 = .ok () then [now]
      else []) now ((rate.take entries other now).2.get key) := by
  by_cases hkey : other = key
  swap
  · rw [if_neg fun hand => hkey hand.1, List.append_nil, take_other hkey]
    exact h.swept hnow
  · obtain rfl := hkey
    obtain ⟨part, hpart, hlt, hpast, ⟨hlevel, hanswer, hget⟩ | ⟨left, hleft, hlevel, hanswer, hget⟩⟩
      := h.take_eq hnonneg hnow
    · rw [if_neg (by rw [hanswer]; rintro ⟨-, hok⟩; cases hok), List.append_nil, hget]
      refine ⟨fun bucket hb => ?_, ?_⟩
      · obtain rfl := Option.some.inj hb
        exact sound_parts (le_refl 0) (Int.natCast_nonneg _) hpart hpast
      · have hsame : rate.level now (some ⟨0, now - part⟩) = 0 * rate.msPerToken + part :=
          level_parts (Int.natCast_nonneg _) hpart hlt
        rw [hsame, Int.zero_mul, Int.zero_add, ← hlevel]
        exact (h.swept hnow).metered
    · rw [if_pos ⟨rfl, hanswer⟩, hget]
      refine ⟨fun bucket hb => ?_, ?_⟩
      · obtain rfl := Option.some.inj hb
        exact sound_parts (Int.natCast_nonneg _) (by omega) hpart hpast
      · have hleft : (left : Int) ≤ rate.burst := by omega
        have hpaid : rate.level now (some ⟨left, now - part⟩) = left * rate.msPerToken + part :=
          level_parts hleft hpart hlt
        have hbefore : rate.level now ((rate.swept entries now).get other) - rate.msPerToken =
            left * rate.msPerToken + part := by
          rw [hlevel, Int.add_mul]
          omega
        rw [hpaid, ← hbefore]
        refine (h.swept hnow).metered.take ?_
        have hwhole : 0 ≤ (left : Int) * rate.msPerToken :=
          Int.mul_nonneg (Int.natCast_nonneg _) (le_of_lt (msPerToken_pos rate))
        rw [hlevel, Int.add_mul]
        omega

end Steps

end Huliho.Rate
