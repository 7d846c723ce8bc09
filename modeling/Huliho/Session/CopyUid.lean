import Mathlib.Data.List.Nodup
import Huliho.Session.Command

/-!
# The pairs of a move or a copy

`session/write/copyuid.rs`: the `COPYUID` codes of an answer, each of which names the target's
UIDVALIDITY and two UID sets that pair one to one. `note` reads one line, `noted` a whole answer. What
is accepted is one-to-one, of sources that were asked for and of one UIDVALIDITY, without a zero and no
longer than the ask, and the ranges are never expanded past it (**`noted_paired`**).
-/

namespace Huliho.Session

def UNPAIRED : String := "COPYUID does not pair with the UIDs asked"

def ZERO : String := "COPYUID names a zero"

structure Moved where
  uidValidity : Nat
  /-- Source and target, in the order the code names them. -/
  uids : List (Nat × Nat)
deriving DecidableEq

namespace UidSetMember

/-- How many UIDs a member names. -/
def width : UidSetMember → Nat
  | uid _ => 1
  | uidRange start stop _ => stop - start + 1

/-- The UIDs a member names, from its low end. -/
def uids : UidSetMember → List Nat
  | uid n => [n]
  | uidRange start stop _ => List.range' start (stop - start + 1)

theorem length_uids (member : UidSetMember) : member.uids.length = member.width := by
  cases member with
  | uid uid => rfl
  | uidRange start stop h => exact List.length_range'

end UidSetMember

/-- Whether a set names no more UIDs than there is room for, counted up to the member that passes it. -/
def fits (room : Nat) : List UidSetMember → Nat → Bool
  | [], _ => true
  | member :: set, total =>
    if room < total + member.width then false else fits room set (total + member.width)

/-- The UIDs of a set in the order it names them; past the room it fails before any is listed. -/
def expanded (set : List UidSetMember) (room : Nat) : Except SessionError (List Nat) :=
  if fits room set 0 then .ok (set.flatMap UidSetMember.uids) else .error (.protocol UNPAIRED)

/-- The pairs of one code added to those held. -/
def paired (asked : List Nat) : List (Nat × Nat) → List (Nat × Nat) →
    Except SessionError (List (Nat × Nat))
  | held, [] => .ok held
  | held, pair :: pairs =>
    if pair.1 ∉ asked ∨ held.any fun found => found.1 = pair.1 ∨ found.2 = pair.2 then
      .error (.protocol UNPAIRED)
    else paired asked (held ++ [pair]) pairs

def heldOf (moved : Option Moved) : List (Nat × Nat) := moved.elim [] Moved.uids

/-- The room an ask leaves beside the pairs held. -/
def roomOf (moved : Option Moved) (asked : List Nat) : Nat := asked.length - (heldOf moved).length

/-- The code of a status that is an OK. -/
def codeOf : Response → Option (Nat × List UidSetMember × List UidSetMember)
  | .data .ok (some (.copyUid uidValidity source target)) => some (uidValidity, source, target)
  | .done .ok (some (.copyUid uidValidity source target)) => some (uidValidity, source, target)
  | _ => none

/-- Keeps the pairs that one line's code names. -/
def note (moved : Option Moved) (response : Response) (asked : List Nat) :
    Except SessionError (Option Moved) :=
  match codeOf response with
  | none => .ok moved
  | some (uidValidity, source, target) => do
    let room := roomOf moved asked
    let source ← expanded source room
    let target ← expanded target room
    if uidValidity = 0 ∨ 0 ∈ source ∨ 0 ∈ target then throw (.protocol ZERO)
    let held := moved.getD ⟨uidValidity, []⟩
    if held.uidValidity ≠ uidValidity ∨ source.length ≠ target.length then
      throw (.protocol UNPAIRED)
    let uids ← paired asked held.uids (source.zip target)
    return some { held with uids }

/-- The lines of one answer, one after another. -/
def noted (asked : List Nat) (moved : Option Moved) (responses : List Response) :
    Except SessionError (Option Moved) :=
  responses.foldlM (fun moved response => note moved response asked) moved

/-- How many UIDs a set is expanded to. -/
def steps (set : List UidSetMember) (room : Nat) : Nat :=
  match expanded set room with
  | .ok uids => uids.length
  | .error _ => 0

/-- How many UIDs the sets of an answer are expanded to: those named by `side` of each code, up to the
line that fails. -/
def stepsOf (asked : List Nat)
    (side : Nat × List UidSetMember × List UidSetMember → List UidSetMember) :
    Option Moved → List Response → Nat
  | _, [] => 0
  | moved, response :: responses =>
    let now := (codeOf response).elim 0 fun code => steps (side code) (roomOf moved asked)
    match note moved response asked with
    | .ok moved => now + stepsOf asked side moved responses
    | .error _ => now

/-- What was accepted of an ask. -/
structure Paired (asked : List Nat) (moved : Moved) : Prop where
  sources : (moved.uids.map Prod.fst).Nodup
  targets : (moved.uids.map Prod.snd).Nodup
  named : ∀ pair ∈ moved.uids, pair.1 ∈ asked
  nonzero : ∀ pair ∈ moved.uids, pair.1 ≠ 0 ∧ pair.2 ≠ 0
  validity : moved.uidValidity ≠ 0
  room : moved.uids.length ≤ asked.length

section

variable {asked : List Nat} {moved next : Option Moved} {response : Response}
variable {set source target : List UidSetMember} {room total uidValidity : Nat}
variable {uids held pairs result : List (Nat × Nat)}

theorem fits_le : ∀ {set : List UidSetMember} {total : Nat}, total ≤ room → fits room set total →
    total + (set.flatMap UidSetMember.uids).length ≤ room
  | [], _, htotal, _ => htotal
  | member :: set, total, _, h => by
    rw [fits] at h
    split at h
    · cases h
    · rename_i hroom
      have hrest := fits_le (Nat.le_of_not_lt hroom) h
      rw [List.flatMap_cons, List.length_append, member.length_uids]
      omega

/-- A set that is expanded takes no more than the room. -/
theorem length_expanded {uids : List Nat} (h : expanded set room = .ok uids) :
    uids.length ≤ room := by
  rw [expanded] at h
  split at h
  · rename_i hfits
    obtain rfl := Except.ok.inj h
    have hle := fits_le (Nat.zero_le room) hfits
    omega
  · cases h

theorem steps_le (set : List UidSetMember) (room : Nat) : steps set room ≤ room := by
  rw [steps]
  split
  · rename_i uids h
    exact length_expanded h
  · exact Nat.zero_le _

/-- What `paired` adds: every pair of the code, each source asked for and none of its ends held. -/
theorem paired_eq (h : paired asked held pairs = .ok result) : result = held ++ pairs ∧
    (∀ pair ∈ pairs, pair.1 ∈ asked) ∧
    ((held.map Prod.fst).Nodup → (result.map Prod.fst).Nodup) ∧
    ((held.map Prod.snd).Nodup → (result.map Prod.snd).Nodup) := by
  induction pairs generalizing held with
  | nil =>
    obtain rfl := Except.ok.inj h
    exact ⟨(List.append_nil _).symm, fun _ hpair => absurd hpair List.not_mem_nil, id, id⟩
  | cons pair pairs ih =>
    rw [paired] at h
    split at h
    · cases h
    · rename_i hnew
      obtain ⟨hasked, hfree⟩ := not_or.1 hnew
      obtain ⟨rfl, hall, hsources, htargets⟩ := ih h
      have hfree : ∀ found ∈ held, found.1 ≠ pair.1 ∧ found.2 ≠ pair.2 := by
        intro found hfound
        have hfound := List.any_eq_false.1 (Bool.eq_false_iff.2 hfree) found hfound
        exact not_or.1 fun hends => hfound (decide_eq_true hends)
      refine ⟨by rw [List.append_assoc, List.singleton_append], ?_, ?_, ?_⟩
      · intro other hother
        rcases List.mem_cons.1 hother with rfl | hother
        · exact not_not.1 hasked
        · exact hall other hother
      · refine fun hnodup => hsources ?_
        rw [List.map_append, List.map_singleton, List.nodup_append]
        refine ⟨hnodup, List.nodup_singleton _, ?_⟩
        rintro a ha b hb rfl
        obtain ⟨found, hfound, rfl⟩ := List.mem_map.1 ha
        exact (hfree found hfound).1 (List.mem_singleton.1 hb)
      · refine fun hnodup => htargets ?_
        rw [List.map_append, List.map_singleton, List.nodup_append]
        refine ⟨hnodup, List.nodup_singleton _, ?_⟩
        rintro a ha b hb rfl
        obtain ⟨found, hfound, rfl⟩ := List.mem_map.1 ha
        exact (hfree found hfound).2 (List.mem_singleton.1 hb)

/-- What a line with a code that is accepted leaves. -/
theorem note_code (hcode : codeOf response = some (uidValidity, source, target))
    (h : note moved response asked = .ok next) : ∃ froms onto uids,
      expanded source (roomOf moved asked) = .ok froms ∧
      expanded target (roomOf moved asked) = .ok onto ∧
      uidValidity ≠ 0 ∧ 0 ∉ froms ∧ 0 ∉ onto ∧ froms.length = onto.length ∧
      (∀ held, moved = some held → held.uidValidity = uidValidity) ∧
      paired asked (heldOf moved) (froms.zip onto) = .ok uids ∧ next = some ⟨uidValidity, uids⟩ := by
  rw [note, hcode] at h
  simp only [bind, Except.bind] at h
  split at h
  · cases h
  rename_i froms hfroms
  split at h
  · cases h
  rename_i onto honto
  split at h
  · cases h
  rename_i hzero
  split at h
  · cases h
  rename_i hpair
  split at h
  · cases h
  rename_i uids hpaired
  obtain ⟨hvalidity, hsource, htarget⟩ : uidValidity ≠ 0 ∧ 0 ∉ froms ∧ 0 ∉ onto := by
    simpa only [not_or] using hzero
  obtain ⟨hsame, hlength⟩ : (moved.getD ⟨uidValidity, []⟩).uidValidity = uidValidity ∧
      froms.length = onto.length := by simpa only [not_or, not_not] using hpair
  refine ⟨froms, onto, uids, hfroms, honto, hvalidity, hsource, htarget, hlength, ?_, ?_, ?_⟩
  · rintro held rfl
    exact hsame
  · rw [← hpaired]
    cases moved <;> rfl
  · rw [hsame] at h
    exact (Except.ok.inj h).symm

/-- What is accepted so far: no code yet, or pairs in order. -/
def Sound (asked : List Nat) (moved : Option Moved) : Prop := ∀ held ∈ moved, Paired asked held

theorem Sound.parts (h : Sound asked moved) : ((heldOf moved).map Prod.fst).Nodup ∧
    ((heldOf moved).map Prod.snd).Nodup ∧ (∀ pair ∈ heldOf moved, pair.1 ∈ asked) ∧
    (∀ pair ∈ heldOf moved, pair.1 ≠ 0 ∧ pair.2 ≠ 0) ∧ (heldOf moved).length ≤ asked.length := by
  cases moved with
  | none => exact ⟨List.nodup_nil, List.nodup_nil, nofun, nofun, Nat.zero_le _⟩
  | some held =>
    have hpaired := h held rfl
    exact ⟨hpaired.sources, hpaired.targets, hpaired.named, hpaired.nonzero, hpaired.room⟩

/-- **One line keeps the pairs in order**, and a code of one UIDVALIDITY with them; both its sets
took the room the new pairs take. -/
theorem Sound.note (h : Sound asked moved)
    (hnote : Session.note moved response asked = .ok next) : Sound asked next ∧
    (∀ held ∈ moved, ∃ later ∈ next, later.uidValidity = held.uidValidity) ∧
    ∀ code, codeOf response = some code → (∃ held ∈ next, held.uidValidity = code.1) ∧
      ∀ side ∈ [code.2.1, code.2.2],
        steps side (roomOf moved asked) + roomOf next asked = roomOf moved asked := by
  cases hcode : codeOf response with
  | none =>
    rw [Session.note, hcode] at hnote
    obtain rfl := Except.ok.inj hnote
    exact ⟨h, fun held hheld => ⟨held, hheld, rfl⟩, nofun⟩
  | some code =>
    obtain ⟨uidValidity, source, target⟩ := code
    obtain ⟨froms, onto, uids, hfroms, honto, hvalidity, hsource, htarget, hlength, hsame, hpaired,
      rfl⟩ := note_code hcode hnote
    obtain ⟨hfirst, hsecond, hnamed, hnonzero, -⟩ := h.parts
    obtain ⟨rfl, hall, hsources, htargets⟩ := paired_eq hpaired
    have hzip : (froms.zip onto).length = froms.length := by
      rw [List.length_zip, hlength, Nat.min_self]
    have hroom := length_expanded hfroms
    have hle : (heldOf moved).length ≤ asked.length := h.parts.2.2.2.2
    have hadded : (heldOf moved ++ froms.zip onto).length =
        (heldOf moved).length + froms.length := by rw [List.length_append, hzip]
    have hnext : roomOf (some ⟨uidValidity, heldOf moved ++ froms.zip onto⟩) asked =
        asked.length - ((heldOf moved).length + froms.length) := by
      rw [← hadded]
      rfl
    refine ⟨?_, ?_, ?_⟩
    · rintro _ ⟨⟩
      refine ⟨hsources hfirst, htargets hsecond, ?_, ?_, hvalidity, ?_⟩
      · intro pair hpair
        rcases List.mem_append.1 hpair with hpair | hpair
        · exact hnamed pair hpair
        · exact hall pair hpair
      · intro pair hpair
        rcases List.mem_append.1 hpair with hpair | hpair
        · exact hnonzero pair hpair
        · obtain ⟨hfst, hsnd⟩ := List.of_mem_zip hpair
          exact ⟨fun heq => hsource (heq ▸ hfst), fun heq => htarget (heq ▸ hsnd)⟩
      · rw [roomOf] at hroom
        rw [hadded]
        omega
    · exact fun held hheld => ⟨_, rfl, (hsame held hheld).symm⟩
    · rintro _ ⟨⟩
      refine ⟨⟨_, rfl, rfl⟩, fun side hside => ?_⟩
      have hsteps : steps side (roomOf moved asked) = froms.length := by
        rcases List.mem_cons.1 hside with rfl | hside
        · rw [steps, hfroms]
        · obtain rfl := List.mem_singleton.1 hside
          rw [steps, honto, hlength]
      rw [hsteps, hnext]
      rw [roomOf] at hroom ⊢
      omega

theorem noted_cons {responses : List Response} {result : Option Moved} :
    noted asked moved (response :: responses) = .ok result ↔
      ∃ next, note moved response asked = .ok next ∧ noted asked next responses = .ok result := by
  rw [noted, List.foldlM_cons]
  cases note moved response asked <;> simp [noted, bind, Except.bind]

/-- What a whole answer leaves. -/
theorem Sound.noted {responses : List Response} {result : Option Moved} (h : Sound asked moved)
    (hnoted : Session.noted asked moved responses = .ok result) : Sound asked result ∧
    (∀ held ∈ moved, ∃ later ∈ result, later.uidValidity = held.uidValidity) ∧
    ∀ response ∈ responses, ∀ code, codeOf response = some code →
      ∃ held ∈ result, held.uidValidity = code.1 := by
  induction responses generalizing moved with
  | nil =>
    obtain rfl := Except.ok.inj hnoted
    exact ⟨h, fun held hheld => ⟨held, hheld, rfl⟩, nofun⟩
  | cons response responses ih =>
    obtain ⟨next, hnote, hrest⟩ := noted_cons.1 hnoted
    obtain ⟨hnext, hstays, hcode⟩ := h.note hnote
    obtain ⟨hresult, hlater, hcodes⟩ := ih hnext hrest
    refine ⟨hresult, fun held hheld => ?_, fun later hother code hof => ?_⟩
    · obtain ⟨middle, hmiddle, hsame⟩ := hstays held hheld
      obtain ⟨last, hlast, hagain⟩ := hlater middle hmiddle
      exact ⟨last, hlast, hagain.trans hsame⟩
    · rcases List.mem_cons.1 hother with rfl | hother
      · obtain ⟨⟨held, hheld, hsame⟩, -⟩ := hcode code hof
        obtain ⟨last, hlast, hagain⟩ := hlater held hheld
        exact ⟨last, hlast, hagain.trans hsame⟩
      · exact hcodes later hother code hof

/-- The sets of an answer are expanded to no more UIDs than the room it opened with. -/
theorem stepsOf_le {side : Nat × List UidSetMember × List UidSetMember → List UidSetMember}
    (hside : ∀ code, side code ∈ [code.2.1, code.2.2]) (responses : List Response)
    (h : Sound asked moved) : stepsOf asked side moved responses ≤ roomOf moved asked := by
  induction responses generalizing moved with
  | nil => exact Nat.zero_le _
  | cons response responses ih =>
    rw [stepsOf]
    split
    · rename_i next hnote
      obtain ⟨hnext, -, hcode⟩ := h.note hnote
      have hrest := ih hnext
      cases hof : codeOf response with
      | none =>
        rw [Session.note, hof] at hnote
        obtain rfl := Except.ok.inj hnote
        simpa using hrest
      | some code =>
        have htaken := (hcode code hof).2 (side code) (hside code)
        show steps (side code) (roomOf moved asked) + _ ≤ _
        omega
    · cases codeOf response with
      | none => exact Nat.zero_le _
      | some code => exact steps_le _ _

end

/-- **The pairs accepted from an answer are one-to-one, of sources that were asked for, of one
UIDVALIDITY, without a zero and no more than the ask**, and neither set of its codes is expanded to
more UIDs than the ask names. -/
theorem noted_paired (asked : List Nat) (responses : List Response) :
    (∀ moved, noted asked none responses = .ok (some moved) → Paired asked moved ∧
      ∀ response ∈ responses, ∀ code, codeOf response = some code →
        code.1 = moved.uidValidity) ∧
    stepsOf asked (fun code => code.2.1) none responses ≤ asked.length ∧
    stepsOf asked (fun code => code.2.2) none responses ≤ asked.length := by
  have hnone : Sound asked none := nofun
  refine ⟨fun moved hnoted => ?_, ?_, ?_⟩
  · obtain ⟨hsound, -, hcodes⟩ := hnone.noted hnoted
    refine ⟨hsound moved rfl, fun response hresponse code hcode => ?_⟩
    obtain ⟨held, hheld, hsame⟩ := hcodes response hresponse code hcode
    obtain rfl := Option.some.inj hheld
    exact hsame.symm
  · exact stepsOf_le (fun _ => List.mem_cons_self) responses hnone
  · exact stepsOf_le (fun _ => List.mem_cons_of_mem _ List.mem_cons_self) responses hnone

/-- Two codes of one answer add up, the second with a range the wrong way round. -/
theorem noted_two : Paired [2, 3, 4] ⟨9, [(2, 5), (3, 6), (4, 7)]⟩ :=
  ((noted_paired [2, 3, 4]
    [.data .ok (some (.copyUid 9 [.uid 2] [.uid 5])),
      .done .ok (some (.copyUid 9 [.written 4 3] [.written 6 7]))]).1 _ (by decide)).1

end Huliho.Session
