import Mathlib.Data.List.Induction
import Huliho.Rate.Buckets

/-!
# What the allowance grants

The buckets over a whole run of takes. Each key's grants are those of a meter (`metering_after`),
whatever the sweeps drop, so `Metered.span_le` bounds them and `Metered.full_of_idle` fills an idle
key. A refused key's bucket stands still until a token is back (`waits_after`), which is when its
next take is answered.
-/

namespace Huliho.Rate

/-- The takes come at nondecreasing times, none before the epoch. -/
def Timed (takes : List (String × Int)) : Prop :=
  (takes.map Prod.snd).Pairwise (· ≤ ·) ∧ ∀ t ∈ takes.map Prod.snd, 0 ≤ t ∧ t ≤ maxI64

instance (takes : List (String × Int)) : Decidable (Timed takes) :=
  inferInstanceAs (Decidable (_ ∧ _))

section Runs

variable {rate : Rate} {key : String} {takes earlier others : List (String × Int)}
  {entries : Buckets} {now later : Int}

theorem Timed.start {rest : List (String × Int)} (h : Timed (earlier ++ rest)) : Timed earlier := by
  obtain ⟨hsorted, hrange⟩ := h
  rw [List.map_append] at hsorted hrange
  exact ⟨(List.pairwise_append.1 hsorted).1, fun t ht => hrange t (List.mem_append_left _ ht)⟩

/-- A take comes after the ones before it. -/
theorem Timed.last {other : String} (h : Timed (earlier ++ [(other, now)])) :
    (∀ t ∈ earlier.map Prod.snd, t ≤ now) ∧ 0 ≤ now ∧ now ≤ maxI64 := by
  obtain ⟨hsorted, hrange⟩ := h
  rw [List.map_append] at hsorted hrange
  have hnow : now ∈ earlier.map Prod.snd ++ [(other, now)].map Prod.snd := by simp
  exact ⟨fun t ht => (List.pairwise_append.1 hsorted).2.2 t ht now (by simp), hrange now hnow⟩

theorem after_concat {other : String} :
    rate.after (takes ++ [(other, now)]) = (rate.take (rate.after takes) other now).2 :=
  List.foldl_concat ..

theorem grantedFrom_concat {other : String} :
    rate.grantedFrom key entries (takes ++ [(other, now)]) =
      rate.grantedFrom key entries takes ++
        if other = key ∧ (rate.take (takes.foldl (fun entries take =>
          (rate.take entries take.1 take.2).2) entries) other now).1 = .ok () then [now] else [] := by
  induction takes generalizing entries with
  | nil => exact List.append_nil _
  | cons take takes ih =>
    obtain ⟨k, t⟩ := take
    rw [List.cons_append, Rate.grantedFrom, Rate.grantedFrom, ih, List.append_assoc]
    rfl

theorem granted_concat {other : String} :
    rate.granted key (takes ++ [(other, now)]) =
      rate.granted key takes ++
        if other = key ∧ rate.answer takes other now = .ok () then [now] else [] :=
  grantedFrom_concat

/-- **A key's grants are those of a meter.** -/
theorem metering_after (rate : Rate) (key : String) (h : Timed takes) (hlate : ∀ t ∈ takes.map Prod.snd, t ≤ now) :
    rate.Metering (rate.granted key takes) now ((rate.after takes).get key) := by
  induction takes using List.reverseRecOn generalizing now with
  | nil =>
    have hms := msPerToken_pos rate
    refine ⟨fun _ hb => (by cases hb), Metered.start (le_refl _) ?_⟩
    change rate.level now none ≤ _
    rw [level_none]
    omega
  | append_singleton takes take ih =>
    obtain ⟨other, at_⟩ := take
    obtain ⟨hbefore, hnonneg, hmax⟩ := h.last
    rw [after_concat, granted_concat]
    exact ((ih h.start hbefore).take hnonneg hmax).advance (hlate at_ (by simp))

/-- **In every span, a key is granted the burst and one token an interval begun in it at most.** -/
theorem granted_le (h : Timed takes) {a b : Int} (hab : a ≤ b) :
    (((rate.granted key takes).filter fun t => a ≤ t ∧ t ≤ b).length : Int) ≤
      rate.burst + (b - a + rate.msPerToken - 1) / rate.msPerToken := by
  have hms := msPerToken_pos rate
  have hfull := full_nonneg rate
  have hm := (metering_after rate key h fun t ht => (h.2 t ht).2).metered
  have hspan := hm.span_le (le_of_lt hms) hfull (by omega) hab
  have hextra : (((rate.granted key takes).filter fun t => a ≤ t ∧ t ≤ b).length : Int) -
      rate.burst ≤ (b - a + rate.msPerToken - 1) / rate.msPerToken := by
    rw [Int.le_ediv_iff_mul_le hms, Int.sub_mul]
    omega
  omega

/-! ## An idle key -/

theorem le_level_advance {floor : Int} {entry : Option Bucket} (hle : now ≤ later)
    (hfull : floor ≤ rate.burst * rate.msPerToken) (h : floor ≤ rate.level now entry) :
    floor ≤ rate.level later entry := by
  cases entry with
  | none => exact hfull
  | some bucket =>
    have hheld : bucket.held rate.msPerToken later =
        bucket.held rate.msPerToken now + (later - now) := by
      unfold Bucket.held
      omega
    have hrise : min (rate.burst * rate.msPerToken) (clipped rate.burst rate.msPerToken
        (bucket.held rate.msPerToken now) + (later - now)) ≤ _ :=
      le_clipped_add (msPerToken_pos rate)
    rw [level_some] at h ⊢
    rw [hheld]
    omega

theorem le_level_swept {floor : Int} (hfull : floor ≤ rate.burst * rate.msPerToken)
    (h : floor ≤ rate.level now (entries.get key)) :
    floor ≤ rate.level now ((rate.swept entries now).get key) := by
  unfold Rate.swept
  split
  · rw [Record.get_delete]
    cases he : entries.get key with
    | none => exact hfull
    | some bucket =>
      rw [Option.filter_some]
      split
      · rwa [he] at h
      · exact hfull
  · exact h

/-- A take costs its own key one interval at most, and another key nothing. -/
theorem le_level_take {floor : Int} {taken : List Int} {other : String}
    (hm : rate.Metering taken now (entries.get key)) (hnonneg : 0 ≤ now) (hmax : now ≤ maxI64)
    (hfull : floor ≤ rate.burst * rate.msPerToken) (h : floor ≤ rate.level now (entries.get key)) :
    (floor - if other = key then rate.msPerToken else 0) ≤
      rate.level now ((rate.take entries other now).2.get key) := by
  have hswept := le_level_swept hfull h
  by_cases hkey : other = key
  swap
  · rw [if_neg hkey, take_other hkey]
    omega
  · obtain rfl := hkey
    rw [if_pos rfl]
    obtain ⟨part, hpart, hlt, -, ⟨hlevel, -, hget⟩ | ⟨left, hleft, hlevel, -, hget⟩⟩ :=
      hm.take_eq hnonneg hmax
    · rw [hget, level_parts (Int.natCast_nonneg _) hpart hlt]
      omega
    · rw [hget, level_parts (by omega) hpart hlt]
      rw [hlevel, Int.add_mul] at hswept
      omega

/-- **A take is granted exactly where the key's level reaches one interval.** -/
theorem take_ok_iff {taken : List Int} (hm : rate.Metering taken now (entries.get key))
    (hnonneg : 0 ≤ now) (hmax : now ≤ maxI64) :
    (rate.take entries key now).1 = .ok () ↔
      rate.msPerToken ≤ rate.level now ((rate.swept entries now).get key) := by
  obtain ⟨part, hpart, hlt, -, ⟨hlevel, hanswer, -⟩ | ⟨left, hleft, hlevel, hanswer, -⟩⟩ :=
    hm.take_eq hnonneg hmax
  · rw [hanswer, hlevel]
    exact iff_of_false (by simp) (by omega)
  · have hwhole : 0 ≤ (left : Int) * rate.msPerToken :=
      Int.mul_nonneg (Int.natCast_nonneg _) (le_of_lt (msPerToken_pos rate))
    rw [hanswer, hlevel, Int.add_mul]
    exact iff_of_true rfl (by omega)

/-- A full key keeps all of its burst but what it takes. -/
theorem le_level_after {first : List (String × Int)} (h : Timed (earlier ++ first))
    (hlate : ∀ t ∈ (earlier ++ first).map Prod.snd, t ≤ later)
    (hstart : ∀ t ∈ earlier.map Prod.snd, t ≤ now) (hrest : ∀ t ∈ first.map Prod.snd, now ≤ t)
    (hnow : now ≤ later)
    (hfull : rate.burst * rate.msPerToken ≤ rate.level now ((rate.after earlier).get key)) :
    (rate.burst - (first.filter (·.1 = key)).length) * rate.msPerToken ≤
      rate.level later ((rate.after (earlier ++ first)).get key) := by
  have hms := msPerToken_pos rate
  have hle : ∀ n : Nat, ((rate.burst : Int) - n) * rate.msPerToken ≤
      rate.burst * rate.msPerToken :=
    fun n => Int.mul_le_mul_of_nonneg_right (by omega) (le_of_lt hms)
  induction first using List.reverseRecOn generalizing later with
  | nil =>
    rw [List.append_nil]
    refine le_level_advance hnow (hle 0) ?_
    simpa using hfull
  | append_singleton first take ih =>
    obtain ⟨other, at_⟩ := take
    rw [← List.append_assoc] at h ⊢ hlate
    obtain ⟨hbefore, hnonneg, hmax⟩ := h.last
    have hat : now ≤ at_ := hrest at_ (by simp)
    have hprior := ih h.start hbefore (fun t ht => hrest t (by
      rw [List.map_append]
      exact List.mem_append_left _ ht)) hat
    have hm := metering_after rate key h.start hbefore
    have hcount : ((rate.burst : Int) - ((first ++ [(other, at_)]).filter (·.1 = key)).length) *
        rate.msPerToken = (rate.burst - (first.filter (·.1 = key)).length) * rate.msPerToken -
          if other = key then rate.msPerToken else 0 := by
      by_cases hkey : other = key
      · rw [if_pos hkey, List.filter_append, List.length_append]
        simp only [List.filter_singleton, hkey, decide_true, cond_true, List.length_singleton]
        push_cast
        rw [Int.sub_mul, Int.sub_mul, Int.add_mul]
        omega
      · rw [if_neg hkey, List.filter_append]
        simp [hkey]
    rw [after_concat, hcount]
    refine le_level_advance (hlate at_ (by simp)) ?_ (le_level_take hm hnonneg hmax (hle _) hprior)
    rw [← hcount]
    exact hle _

/-! ## A refused key -/

/-- An empty bucket last refilled at `since`, or none once its next token was due. -/
def Waits (rate : Rate) (since now : Int) (entry : Option Bucket) : Prop :=
  entry = some ⟨0, since⟩ ∨ (entry = none ∧ since + rate.msPerToken ≤ now)

theorem waits_swept {since : Int} {taken : List Int} (hburst : 1 ≤ rate.burst)
    (hm : rate.Metering taken now (entries.get key)) (hmax : now ≤ maxI64)
    (h : Waits rate since now (entries.get key)) :
    Waits rate since now ((rate.swept entries now).get key) := by
  unfold Rate.swept
  split
  swap
  · exact h
  rw [Record.get_delete]
  rcases h with h | ⟨h, hdue⟩
  · rw [h, Option.filter_some]
    split
    · exact .inl rfl
    · rename_i hdrop
      have hs := hm.sound _ h
      refine .inr ⟨rfl, ?_⟩
      have hkeep : ¬ rate.Keeps ⟨0, since⟩ now := by simpa using hdrop
      -- The bucket is full, so at least one whole interval went by.
      have hgained : 1 ≤ (now - since) / rate.msPerToken := by
        by_contra hlt
        refine hkeep ?_
        unfold Rate.Keeps
        rw [gained_eq hs hmax]
        have hfew : (0 : Int) + (now - since) / rate.msPerToken < rate.burst := by omega
        have hword := rate.burst_le
        refine (saturate_lt ?_ ?_).2 hfew <;> unfold minI64 maxI64 maxU32 at * <;> omega
      rw [Int.le_ediv_iff_mul_le (msPerToken_pos rate)] at hgained
      omega
  · rw [h]
    exact .inr ⟨rfl, hdue⟩

theorem waits_after {since : Int} (hburst : 1 ≤ rate.burst) (h : Timed (earlier ++ others))
    (hothers : ∀ take ∈ others, take.1 ≠ key) (hlate : ∀ t ∈ others.map Prod.snd, t ≤ later)
    (hwait : ∀ now, Waits rate since now ((rate.after earlier).get key)) :
    Waits rate since later ((rate.after (earlier ++ others)).get key) := by
  induction others using List.reverseRecOn generalizing later with
  | nil =>
    rw [List.append_nil]
    exact hwait later
  | append_singleton others take ih =>
    obtain ⟨other, at_⟩ := take
    rw [← List.append_assoc] at h ⊢
    obtain ⟨hbefore, hnonneg, hmax⟩ := h.last
    have hprior := ih h.start (fun take ht => hothers take (List.mem_append_left _ ht))
      fun t ht => hbefore t (by
        rw [List.map_append]
        exact List.mem_append_right _ ht)
    have hm := metering_after rate key h.start hbefore
    have hat : at_ ≤ later := hlate at_ (by simp)
    rw [after_concat, take_other (hothers (other, at_) (by simp))]
    rcases waits_swept hburst hm hmax hprior with hsome | ⟨hnone, hdue⟩
    · exact .inl hsome
    · exact .inr ⟨hnone, by omega⟩

/-- **The next take of a refused key is granted exactly from when its next token is due.** -/
theorem answer_ok_iff_due {since : Int} (hburst : 1 ≤ rate.burst)
    (h : Timed (earlier ++ others ++ [(key, later)])) (hothers : ∀ take ∈ others, take.1 ≠ key)
    (hwait : ∀ now, Waits rate since now ((rate.after earlier).get key)) :
    rate.answer (earlier ++ others) key later = .ok () ↔ since + rate.msPerToken ≤ later := by
  obtain ⟨hbefore, hnonneg, hmax⟩ := h.last
  have hm := metering_after rate key h.start hbefore
  have hall := waits_after hburst h.start hothers (fun t ht => hbefore t (by
    rw [List.map_append]
    exact List.mem_append_right _ ht)) hwait
  have hone : 1 * rate.msPerToken ≤ rate.burst * rate.msPerToken :=
    Int.mul_le_mul_of_nonneg_right (by omega) (le_of_lt (msPerToken_pos rate))
  rw [Rate.answer, take_ok_iff hm hnonneg hmax]
  rcases waits_swept hburst hm hmax hall with hsome | ⟨hnone, hdue⟩
  · have hpart := Int.emod_nonneg (later - since) (ne_of_gt (msPerToken_pos rate))
    have hheld : (⟨0, since⟩ : Bucket).held rate.msPerToken later = later - since := by
      change 0 * rate.msPerToken + (later - since) = _
      omega
    rw [hsome, level_some, hheld, clipped]
    omega
  · rw [hnone, level_none]
    exact iff_of_true (by omega) hdue

/-- A refused take leaves its key waiting since the last interval began. -/
theorem refused_waits {wait : Int} (h : Timed (earlier ++ [(key, now)]))
    (hrefused : rate.answer earlier key now = .error wait) :
    ∃ since, now - rate.msPerToken < since ∧ since ≤ now ∧
      wait = max (saturatingSub (saturatingAdd since rate.msPerToken) now) 1 ∧
      ∀ u, Waits rate since u ((rate.after (earlier ++ [(key, now)])).get key) := by
  obtain ⟨hbefore, hnonneg, hmax⟩ := h.last
  have hm := metering_after rate key h.start hbefore
  obtain ⟨part, hpart, hlt, -, ⟨-, hanswer, hget⟩ | ⟨-, -, -, hanswer, -⟩⟩ :=
    hm.take_eq hnonneg hmax
  · refine ⟨now - part, by omega, by omega, ?_, fun u => .inl ?_⟩
    · rw [Rate.answer, hanswer] at hrefused
      exact (Except.error.inj hrefused).symm
    · rw [after_concat, hget]
  · rw [Rate.answer, hanswer] at hrefused
    cases hrefused

end Runs

/-- **What the allowance grants.** In every span a key is granted the burst and one token for each
interval begun in it at most; a key granted nothing for as many intervals as the burst is granted a
full burst; and a refused take names a wait before which a take is refused and after which it is
granted, unless the wait ends at the last instant of the clock. -/
theorem allowance (rate : Rate) (hburst : 1 ≤ rate.burst) (key : String) :
    (∀ takes, Timed takes → ∀ a b, a ≤ b →
      (((rate.granted key takes).filter fun t => a ≤ t ∧ t ≤ b).length : Int) ≤
        rate.burst + (b - a + rate.msPerToken - 1) / rate.msPerToken) ∧
    (∀ before after now, Timed (before ++ after) → (∀ t ∈ before.map Prod.snd, t ≤ now) →
      (∀ t ∈ after.map Prod.snd, now ≤ t) →
      (∀ t ∈ rate.granted key before, t + rate.burst * rate.msPerToken ≤ now) →
      ∀ first t rest, after = first ++ (key, t) :: rest →
        (first.filter (·.1 = key)).length < rate.burst →
          rate.answer (before ++ first) key t = .ok ()) ∧
    (∀ before now wait others t, Timed (before ++ (key, now) :: others ++ [(key, t)]) →
      (∀ take ∈ others, take.1 ≠ key) → rate.answer before key now = .error wait → 0 < wait ∧
        (t < now + wait → rate.answer (before ++ (key, now) :: others) key t ≠ .ok ()) ∧
        (now + rate.msPerToken ≤ maxI64 ∨ now + wait < maxI64 → now + wait ≤ t →
          rate.answer (before ++ (key, now) :: others) key t = .ok ())) := by
  have hms := msPerToken_pos rate
  refine ⟨fun takes h a b hab => granted_le h hab, ?_, ?_⟩
  · intro before after now h hstart hrest hidle first t rest hafter hfew
    have hall : Timed (before ++ first ++ [(key, t)] ++ rest) := by
      rw [hafter] at h
      simpa using h
    have htimed := hall.start
    obtain ⟨hbefore, hnonneg, hmax⟩ := htimed.last
    have hnow : now ≤ t := hrest t (by rw [hafter]; simp)
    have hmeter := metering_after rate key htimed.start.start hstart
    have hfull := hmeter.metered.full_of_idle hidle
    have hlevel := le_level_after htimed.start hbefore hstart
      (fun u hu => hrest u (by rw [hafter, List.map_append]; exact List.mem_append_left _ hu))
      hnow hfull
    rw [Rate.answer, take_ok_iff (metering_after rate key htimed.start hbefore) hnonneg hmax]
    have hleft : ∀ left : Int, 1 ≤ left → rate.msPerToken ≤ left * rate.msPerToken := fun left h =>
      le_mul_of_one_le_left (le_of_lt hms) h
    exact le_level_swept (hleft _ (by omega)) (le_trans (hleft _ (by omega)) hlevel)
  · intro before now wait others t h hothers hrefused
    have hsplit : before ++ (key, now) :: others = before ++ [(key, now)] ++ others := by simp
    rw [hsplit] at h ⊢
    have htaken := h.start.start
    obtain ⟨-, hnonneg, hmax⟩ := htaken.last
    obtain ⟨since, hafter, hbefore, hwait, hstands⟩ := refused_waits htaken hrefused
    have hnext : saturatingAdd since rate.msPerToken = min (since + rate.msPerToken) maxI64 :=
      saturate_of_le (le_trans (by decide) (by omega : (0 : Int) ≤ since + rate.msPerToken))
    have hrest : saturatingSub (min (since + rate.msPerToken) maxI64) now =
        min (since + rate.msPerToken) maxI64 - now :=
      saturate_of_inI64 ⟨le_trans (by decide) (by omega : (0 : Int) ≤ _), by omega⟩
    rw [hnext, hrest] at hwait
    have hdue := answer_ok_iff_due hburst h hothers hstands
    refine ⟨by omega, fun hlt hok => ?_, fun hfits hle => hdue.2 (by omega)⟩
    have := hdue.1 hok
    omega

/-- One token at once and one back a minute. -/
theorem allowance_once :
    Rate.answer ⟨1, 1, by decide⟩ [("s1", 0), ("s1", 1000)] "s1" 60000 = .ok () := by
  exact ((allowance ⟨1, 1, by decide⟩ (le_refl 1) "s1").2.2 [("s1", 0)] 1000 59000 [] 60000
    (by decide) (by simp) (by decide)).2.2 (by decide) (le_refl _)

/-- At the ends of the clock the sums saturate: a wait that ends with the clock is not enough, and
a bucket last refilled at the start of it is full twice over. -/
theorem not_allowance_at_ends :
    (Rate.answer ⟨1, 120, by decide⟩ [("s1", maxI64 - 5)] "s1" (maxI64 - 5) = .error 5 ∧
      Rate.answer ⟨1, 120, by decide⟩ [("s1", maxI64 - 5), ("s1", maxI64 - 5)] "s1" maxI64 ≠
        .ok ()) ∧
    Rate.granted ⟨1, 60000, by decide⟩ "s1" [("s1", minI64), ("s1", maxI64), ("s1", maxI64)] =
      [minI64, maxI64, maxI64] := by
  decide

end Huliho.Rate
