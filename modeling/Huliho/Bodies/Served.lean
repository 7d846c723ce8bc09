import Huliho.Bodies.Values

/-!
# The values served

What a part's windows and its cap leave of its value. `Works` is what is assumed of the decoder: it
works quartet by quartet, escape by escape and character by character, with one replacement for a
character that was cut. Where an ISO-2022 escape was cut it writes a replacement and reads on.

**`serves_iff`** says exactly when the value served is right. It is not where the fetch stops an
HTML part inside a tag and the cap does not cut what came (`splits_tag`): the tag is looked for only
where the cap cuts. And it is not where a part in base64 or quoted-printable stops inside an
ISO-2022 escape, which only the other encodings are looked through for.
-/

namespace Huliho.Values

open Decode (Bytes symbol PAD LF)
open Session (Text byteLength)

/-! ## The windows -/

/-- A session that serves the bytes of a part. -/
def serving (content : Bytes) (offset bytes : Nat) : Except SessionError (Option Bytes) :=
  .ok (some ((content.drop offset).take bytes))

/-- How far the windows reach: the size of the part, the cap and the budget. -/
def reach (leaf : Leaf) (cap budget : Nat) : Nat :=
  min (min leaf.bytes cap) (budget * BODY_WINDOW_BYTES)

theorem cap_le (asked : Nat) : cap asked ≤ U32_MAX := by
  unfold cap MAX_BODY_VALUE_BYTES U32_MAX
  dsimp only
  split_ifs <;> omega

/-- The windows from an offset on. The induction is on the budget, and carries that the offset lies
in the part. -/
theorem windows_serving {content : Bytes} {want offset : Nat} (budget : Nat)
    (hwant : want ≤ U32_MAX) (hoffset : offset ≤ want) (hlength : offset ≤ content.length) :
    (windows (serving content) want budget offset (content.take offset)).1 =
      .ok (some (if content.length < min want (offset + budget * BODY_WINDOW_BYTES)
        then ⟨content, content.length, true⟩
        else ⟨content.take (min want (offset + budget * BODY_WINDOW_BYTES)),
          min want (offset + budget * BODY_WINDOW_BYTES), false⟩)) := by
  induction budget generalizing offset with
  | zero =>
    have hreach : min want (offset + 0 * BODY_WINDOW_BYTES) = offset := by omega
    rw [hreach, if_neg (by omega)]
    rfl
  | succ budget ih =>
    rw [windows]
    by_cases hdone : want ≤ offset
    · have hreach : min want (offset + (budget + 1) * BODY_WINDOW_BYTES) = offset := by omega
      rw [if_pos hdone, hreach, if_neg (by omega)]
    · have hdata : ∀ bytes, ((content.drop offset).take bytes).length =
          min bytes (content.length - offset) := fun bytes => by
        rw [List.length_take, List.length_drop]
      have hjoined : ∀ bytes, content.take offset ++ (content.drop offset).take bytes =
          content.take (offset + bytes) := fun bytes => List.take_add.symm
      have hwindow : BODY_WINDOW_BYTES = 524288 := rfl
      have hnext : (budget + 1) * BODY_WINDOW_BYTES =
          budget * BODY_WINDOW_BYTES + BODY_WINDOW_BYTES := Nat.succ_mul ..
      rw [if_neg hdone]
      dsimp only [serving]
      rw [hdata, hjoined]
      by_cases hshort : content.length < offset + min (want - offset) BODY_WINDOW_BYTES
      · -- The window that holds the end of the part comes short.
        have hreached : min (offset + min (min (want - offset) BODY_WINDOW_BYTES)
            (content.length - offset)) U32_MAX = content.length := by omega
        rw [if_pos (by omega), if_pos (by omega), hreached, List.take_of_length_le (by omega)]
      · have hreached : min (offset + min (min (want - offset) BODY_WINDOW_BYTES)
            (content.length - offset)) U32_MAX =
            offset + min (want - offset) BODY_WINDOW_BYTES := by omega
        have hreach : min want (offset + min (want - offset) BODY_WINDOW_BYTES +
            budget * BODY_WINDOW_BYTES) = min want (offset + (budget + 1) * BODY_WINDOW_BYTES) := by
          omega
        rw [if_neg (by omega), hreached, ih (by omega) (by omega), hreach]

/-- **The windows bring a part up to where they reach**, and the bytes are the whole part where they
reach past its end or to the size the structure gives it. -/
theorem valueOf_serving (content : Bytes) (leaf : Leaf) (asked budget : Nat) :
    (valueOf (serving content) leaf (cap asked) budget).1 =
      .ok (some ⟨leaf, content.take (reach leaf (cap asked) budget), cap asked,
        decide (content.length < reach leaf (cap asked) budget ∨
          leaf.bytes ≤ reach leaf (cap asked) budget)⟩) := by
  have hwant : min leaf.bytes (cap asked) ≤ U32_MAX := (Nat.min_le_right _ _).trans (cap_le asked)
  have hread := windows_serving budget hwant (Nat.zero_le _) (Nat.zero_le content.length)
  rw [Nat.zero_add, List.take_zero] at hread
  unfold valueOf reach
  dsimp only
  rw [hread]
  by_cases hshort : content.length < min (min leaf.bytes (cap asked)) (budget * BODY_WINDOW_BYTES)
  · rw [if_pos hshort, decide_eq_true (Or.inl hshort), List.take_of_length_le (by omega)]
    rfl
  · have hsame : (content.length < min (min leaf.bytes (cap asked)) (budget * BODY_WINDOW_BYTES) ∨
        leaf.bytes ≤ min (min leaf.bytes (cap asked)) (budget * BODY_WINDOW_BYTES)) ↔
        leaf.bytes ≤ min (min leaf.bytes (cap asked)) (budget * BODY_WINDOW_BYTES) :=
      or_iff_right hshort
    rw [if_neg hshort, decide_eq_decide.2 hsame]
    rfl

/-! ## The decoder -/

/-- Where octets stand among the escape sequences of an ISO-2022 charset. -/
def shiftState (octets : Bytes) : EscapeState :=
  escapeState (fun byte => byte = ESCAPE) (fun _ => false) octets

/-- What is assumed of the decoder on a part, with `transfer` the decoding of its transfer encoding
and `chars` the one of its charset. -/
structure Works (decoder : Decoder) (leaf : Leaf) (transfer : Bytes → Option Bytes)
    (chars : Bytes → Text) : Prop where
  /-- A part is read without an encoding problem as the characters of its octets. -/
  reads : ∀ bytes text, decoder.parse (mimeHeader leaf ++ bytes) = some ⟨text, false⟩ ↔
    ∃ octets, transfer bytes = some octets ∧ chars octets = text
  /-- The other encodings leave the bytes as they are. -/
  identity : leaf.encoding ≠ "base64" → leaf.encoding ≠ "quoted-printable" →
    ∀ bytes, transfer bytes = some bytes
  /-- Base64 is read quartet by quartet. -/
  quartets : leaf.encoding = "base64" → ∀ front rest octets,
    (front.filter symbol).length % 4 = 0 → transfer (front ++ rest) = some octets →
    ∃ start, transfer front = some start ∧ start <+: octets
  /-- Quoted-printable is read escape by escape; a line break ends an escape behind its introducer.
  -/
  escapes : leaf.encoding = "quoted-printable" → ∀ front rest octets,
    transfer (front ++ rest) = some octets →
    escapeState (fun byte => byte = PAD) (fun byte => byte = LF) front = .closed →
    ∃ start, transfer front = some start ∧ start <+: octets
  /-- What is read of quoted-printable opens no escape inside another. -/
  escaped : leaf.encoding = "quoted-printable" → ∀ bytes octets, transfer bytes = some octets →
    WellEscaped (fun byte => byte = PAD) (fun byte => byte = LF) bytes
  /-- A text is read character by character, with one replacement for one that was cut. -/
  characters : ∀ octets front, REPLACEMENT ∉ chars octets → front <+: octets →
    (shifts leaf = true → shiftState front ≠ .halfway) →
    ∃ start, start <+: chars octets ∧ (chars front = start ∨ chars front = start ++ [REPLACEMENT])
  /-- What is read of an ISO-2022 charset opens no escape inside another. -/
  shifted : shifts leaf = true → ∀ octets, REPLACEMENT ∉ chars octets →
    WellEscaped (fun byte => byte = ESCAPE) (fun _ => false) octets
  /-- For an escape cut behind the octet that follows its introducer there is a replacement, and
  that octet is read again. -/
  cutShift : shifts leaf = true → ∀ octets front, REPLACEMENT ∉ chars octets → front <+: octets →
    shiftState front = .halfway →
    ∃ start c, chars front = start ++ [REPLACEMENT, c] ∧ c ≠ '\r'

/-! ## What is served -/

/-- What a value served has to be, next to the value of the whole part. -/
structure Serves (served : BodyValue) (whole : Text) (cap : Nat) (html : Bool) : Prop where
  starts : served.value <+: whole
  within : byteLength served.value ≤ cap
  sound : served.isEncodingProblem = false
  truncated : served.value ≠ whole → served.isTruncated = true
  outside : html = true → ¬ InTag served.value whole

/-- The text of octets that stop short of the part: without what the stop split, its line ends
folded. -/
def heldText (chars : Bytes → Text) (octets : Bytes) : Text :=
  foldBreaks (popped '\r' (popped REPLACEMENT (chars octets)))

/-- Where the two cuts mend their edges: the windows bring the whole part, or what they bring stops
in no ISO-2022 escape under base64 or quoted-printable and, for HTML, in no tag, unless the cap cuts
it once more. -/
def Mends (leaf : Leaf) (transfer : Bytes → Option Bytes) (chars : Bytes → Text) (content : Bytes)
    (whole : Text) (cap budget : Nat) : Prop :=
  let fetched := content.take (reach leaf cap budget)
  content.length < reach leaf cap budget ∨ leaf.bytes ≤ reach leaf cap budget ∨
    ∀ octets, transfer (fetched.take (border leaf fetched false)) = some octets →
      (leaf.encoding = "base64" ∨ leaf.encoding = "quoted-printable" → shifts leaf = true →
        shiftState octets ≠ .halfway) ∧
      (leaf.subtype = "html" →
        cap < byteLength (heldText chars octets) ∨ ¬ InTag (heldText chars octets) whole)

variable {decoder : Decoder} {leaf : Leaf} {transfer : Bytes → Option Bytes} {chars : Bytes → Text}
  {content bytes octets : Bytes} {whole text : Text} {big n budget asked : Nat}

/-- What the parser reads of bytes under the header of their part. -/
def partOf (decoder : Decoder) (leaf : Leaf) (bytes : Bytes) : Parsed :=
  (decoder.parse (mimeHeader leaf ++ bytes)).getD ⟨[], bytes ≠ []⟩

/-- The value of a part as it was parsed. -/
def rendered (decoder : Decoder) (leaf : Leaf) (part : Parsed) (cap : Nat) (whole : Bool) :
    BodyValue :=
  let text := if whole then part.text else popped '\r' (popped REPLACEMENT part.text)
  ⟨(truncate (foldBreaks text) cap (leaf.subtype = "html")).1,
    part.problem || unknownCharset decoder leaf || unknownEncoding leaf || REPLACEMENT ∈ text,
    !whole || (truncate (foldBreaks text) cap (leaf.subtype = "html")).2⟩

theorem decode_eq (fetched : Bytes) (cap : Nat) (whole : Bool) :
    decode decoder leaf fetched cap whole =
      rendered decoder leaf (partOf decoder leaf (fetched.take (border leaf fetched whole))) cap
        whole := rfl

theorem take_border_whole (content : Bytes) : content.take (border leaf content true) = content :=
  List.take_length

/-- A value of the whole part, with the cap above it. -/
theorem decode_whole (h : decode decoder leaf content big true = ⟨whole, false, false⟩) :
    ∃ text, partOf decoder leaf content = ⟨text, false⟩ ∧ REPLACEMENT ∉ text ∧
      foldBreaks text = whole ∧ unknownCharset decoder leaf = false ∧
      unknownEncoding leaf = false := by
  rw [decode_eq, take_border_whole] at h
  generalize partOf decoder leaf content = part at h ⊢
  obtain ⟨text, problem⟩ := part
  obtain ⟨hvalue, hproblem, hcut⟩ := BodyValue.mk.inj h
  rw [if_pos rfl] at hvalue hproblem hcut
  simp only [Bool.or_eq_false_iff, decide_eq_false_iff_not] at hproblem
  obtain ⟨⟨⟨hnone, hcharset⟩, hencoding⟩, hread⟩ := hproblem
  refine ⟨text, by rw [hnone], hread, ?_, hcharset, hencoding⟩
  by_cases hfits : big < byteLength (foldBreaks text)
  · rw [truncate_cut hfits] at hcut
    cases hcut
  · rwa [truncate_uncut (Nat.le_of_not_lt hfits)] at hvalue

section
variable (hcharset : unknownCharset decoder leaf = false) (hencoding : unknownEncoding leaf = false)
include hcharset hencoding

/-- A value of the whole part that is read is right, whatever the cap is. -/
theorem serves_rendered (cap : Nat) (hread : REPLACEMENT ∉ text) :
    Serves (rendered decoder leaf ⟨text, false⟩ cap true) (foldBreaks text) cap
      (leaf.subtype = "html") where
  starts := truncate_starts _ _ _
  within := byteLength_truncate _ _ _
  sound := by
    unfold rendered
    dsimp only
    rw [hcharset, hencoding, if_pos rfl, decide_eq_false hread]
    rfl
  truncated := by
    intro hne
    unfold rendered at hne ⊢
    dsimp only at hne ⊢
    rw [if_pos rfl] at hne ⊢
    unfold truncate at hne ⊢
    split_ifs at hne ⊢
    · exact absurd rfl hne
    · rfl
    · rfl
  outside := by
    intro hhtml
    unfold rendered
    dsimp only
    rw [if_pos rfl, hhtml]
    by_cases hcut : cap < byteLength (foldBreaks text)
    · exact truncate_not_inTag (List.prefix_refl _) hcut
    · rw [truncate_uncut (Nat.le_of_not_lt hcut)]
      exact not_inTag_self _

/-- A value of bytes that stop short is right exactly where its text is read, and, for HTML, ends in
no tag unless the cap cuts it. -/
theorem serves_short_iff (cap : Nat) {held : Text}
    (hheld : popped '\r' (popped REPLACEMENT text) = held)
    (hstarts : REPLACEMENT ∉ held → foldBreaks held <+: whole) :
    Serves (rendered decoder leaf ⟨text, false⟩ cap false) whole cap (leaf.subtype = "html") ↔
      REPLACEMENT ∉ held ∧ (leaf.subtype = "html" →
        cap < byteLength (foldBreaks held) ∨ ¬ InTag (foldBreaks held) whole) := by
  have hrendered : rendered decoder leaf ⟨text, false⟩ cap false =
      ⟨(truncate (foldBreaks held) cap (leaf.subtype = "html")).1, decide (REPLACEMENT ∈ held),
        true⟩ := by
    unfold rendered
    dsimp only
    rw [hcharset, hencoding, if_neg Bool.false_ne_true, hheld]
    rfl
  rw [hrendered]
  constructor
  · intro h
    refine ⟨of_decide_eq_false h.sound, fun hhtml => ?_⟩
    by_cases hcut : cap < byteLength (foldBreaks held)
    · exact .inl hcut
    · have houtside := h.outside (decide_eq_true hhtml)
      dsimp only at houtside
      rw [truncate_uncut (Nat.le_of_not_lt hcut)] at houtside
      exact .inr houtside
  · rintro ⟨hread, htag⟩
    have hstarts := hstarts hread
    refine ⟨(truncate_starts _ _ _).trans hstarts, byteLength_truncate _ _ _, decide_eq_false hread,
      fun _ => rfl, fun hhtml => ?_⟩
    dsimp only
    rw [hhtml]
    rcases htag (of_decide_eq_true hhtml) with hcut | hout
    · exact truncate_not_inTag hstarts hcut
    · by_cases hcut : cap < byteLength (foldBreaks held)
      · exact truncate_not_inTag hstarts hcut
      · rwa [truncate_uncut (Nat.le_of_not_lt hcut)]

end

/-- **What the windows bring up to its border decodes to a beginning of the part's octets.** Where
the bytes are the octets, these stop in no escape. -/
theorem border_starts (works : Works decoder leaf transfer chars) (n : Nat)
    (hoctets : transfer content = some octets) (hread : REPLACEMENT ∉ chars octets) :
    ∃ front, transfer ((content.take n).take (border leaf (content.take n) false)) = some front ∧
      front <+: octets ∧ (leaf.encoding ≠ "base64" → leaf.encoding ≠ "quoted-printable" →
        shifts leaf = true → shiftState front = .closed) := by
  obtain ⟨rest, hrest⟩ : (content.take n).take (border leaf (content.take n) false) <+: content :=
    List.IsPrefix.trans ( List.take_prefix _ _) ( List.take_prefix n content)
  by_cases hbase : leaf.encoding = "base64"
  · have hborder : border leaf (content.take n) false = quartets (content.take n) := by
      rw [border, if_neg Bool.false_ne_true, if_pos hbase]
    obtain ⟨front, hfront, hstart⟩ := works.quartets hbase _ rest octets
      (by rw [hborder]; exact quartets_whole _) (hrest ▸ hoctets)
    exact ⟨front, hfront, hstart, fun hne => absurd hbase hne⟩
  by_cases hquoted : leaf.encoding = "quoted-printable"
  · have hborder : border leaf (content.take n) false =
        escapeCut (fun byte => byte = PAD) (content.take n) := by
      rw [border, if_neg Bool.false_ne_true, if_neg hbase, if_pos hquoted]
    have hclosed := escapeState_cut ((works.escaped hquoted content octets hoctets).take n)
    obtain ⟨front, hfront, hstart⟩ := works.escapes hquoted _ rest octets (hrest ▸ hoctets)
      (by rw [hborder]; exact hclosed)
    exact ⟨front, hfront, hstart, fun _ hne => absurd hquoted hne⟩
  · have hsame := works.identity hbase hquoted
    obtain rfl : content = octets := Option.some.inj ((hsame content).symm.trans hoctets)
    refine ⟨_, hsame _, ⟨rest, hrest⟩, fun _ _ hshifts => ?_⟩
    have hborder : border leaf (content.take n) false =
        escapeCut (fun byte => byte = ESCAPE) (content.take n) := by
      rw [border, if_neg Bool.false_ne_true, if_neg hbase, if_neg hquoted, if_pos hshifts]
    rw [hborder]
    exact escapeState_cut ((works.shifted hshifts content hread).take n)

/-- For an escape that was cut a replacement stays. -/
theorem mem_popped_cut (start : Text) {c : Char} (hc : c ≠ '\r') :
    REPLACEMENT ∈ popped '\r' (popped REPLACEMENT (start ++ [REPLACEMENT, c])) := by
  have hlast : start ++ [REPLACEMENT, c] = (start ++ [REPLACEMENT]) ++ [c] := by
    rw [List.append_assoc, List.singleton_append]
  have hmem : REPLACEMENT ∈ start ++ [REPLACEMENT] :=
    List.mem_append_right _ (List.mem_singleton_self _)
  rw [hlast]
  by_cases hsame : c = REPLACEMENT
  · have hne : (start ++ [REPLACEMENT]).getLast? ≠ some '\r' := by
      rw [List.getLast?_concat]
      decide
    rw [hsame, popped_append, popped_of_ne hne]
    exact hmem
  · have hne : ∀ d, c ≠ d → ((start ++ [REPLACEMENT]) ++ [c]).getLast? ≠ some d := by
      intro d hd h
      rw [List.getLast?_concat] at h
      exact hd (Option.some.inj h)
    rw [popped_of_ne (hne REPLACEMENT hsame), popped_of_ne (hne '\r' hc)]
    exact List.mem_append_left _ hmem

/-- A character that was cut is popped. -/
theorem popped_start {start read : Text} (hread : REPLACEMENT ∉ start)
    (h : read = start ∨ read = start ++ [REPLACEMENT]) : popped REPLACEMENT read = start := by
  rcases h with rfl | rfl
  · exact popped_of_ne fun hlast => hread (List.mem_of_getLast? hlast)
  · exact popped_append _ _

/-- **A value of bytes that stop short is right exactly where the stop is mended**: its octets end
in no escape and its text in no tag, unless the cap cuts it. -/
theorem serves_stopped_iff (works : Works decoder leaf transfer chars) (n cap : Nat)
    (hwhole : decode decoder leaf content big true = ⟨whole, false, false⟩) :
    Serves (decode decoder leaf (content.take n) cap false) whole cap (leaf.subtype = "html") ↔
      ∀ octets,
        transfer ((content.take n).take (border leaf (content.take n) false)) = some octets →
        (leaf.encoding = "base64" ∨ leaf.encoding = "quoted-printable" → shifts leaf = true →
          shiftState octets ≠ .halfway) ∧
        (leaf.subtype = "html" →
          cap < byteLength (heldText chars octets) ∨ ¬ InTag (heldText chars octets) whole) := by
  obtain ⟨text, hpart, hread, rfl, hcharset, hencoding⟩ := decode_whole hwhole
  rw [decode_eq]
  cases hparse : decoder.parse (mimeHeader leaf ++ content) with
  | none =>
    -- Nothing is read of an empty part alone.
    rw [partOf, hparse, Option.getD_none] at hpart
    obtain ⟨rfl, hempty⟩ := Parsed.mk.inj hpart
    obtain rfl : content = [] := by simpa using hempty
    rw [List.take_nil, List.take_nil, partOf, hparse, Option.getD_none, hempty]
    have hnone : transfer [] = none := by
      cases htransfer : transfer [] with
      | none => rfl
      | some octets =>
        rw [(works.reads [] _).2 ⟨octets, htransfer, rfl⟩] at hparse
        cases hparse
    have hheld : popped '\r' (popped REPLACEMENT []) = [] := rfl
    rw [serves_short_iff hcharset hencoding cap hheld fun _ => List.prefix_refl _]
    refine iff_of_true ⟨List.not_mem_nil, fun _ => .inr (not_inTag_self _)⟩ ?_
    intro octets htransfer
    rw [hnone] at htransfer
    cases htransfer
  | some part =>
    rw [partOf, hparse, Option.getD_some] at hpart
    obtain ⟨octets, htransfer, rfl⟩ := (works.reads content text).1 (hparse.trans (hpart ▸ rfl))
    obtain ⟨front, hfront, hstarts, hclosed⟩ := border_starts works n htransfer hread
    have hkept : partOf decoder leaf ((content.take n).take (border leaf (content.take n) false)) =
        ⟨chars front, false⟩ := by
      rw [partOf, (works.reads _ _).2 ⟨front, hfront, rfl⟩, Option.getD_some]
    have honly : ∀ {P : Bytes → Prop}, (∀ octets, transfer ((content.take n).take
        (border leaf (content.take n) false)) = some octets → P octets) ↔ P front := by
      intro P
      rw [hfront]
      exact ⟨fun h => h front rfl, fun h _ heq => Option.some.inj heq ▸ h⟩
    rw [hkept, honly]
    by_cases hcut : shifts leaf = true ∧ shiftState front = .halfway
    · -- An escape was cut, so a replacement stays in the value.
      obtain ⟨start, c, hchars, hc⟩ := works.cutShift hcut.1 octets front hread hstarts hcut.2
      have hmem : REPLACEMENT ∈ popped '\r' (popped REPLACEMENT (chars front)) :=
        hchars ▸ mem_popped_cut start hc
      rw [serves_short_iff hcharset hencoding cap rfl fun hnot => absurd hmem hnot]
      refine iff_of_false (fun h => h.1 hmem) fun h => ?_
      by_cases htransferred : leaf.encoding = "base64" ∨ leaf.encoding = "quoted-printable"
      · exact h.1 htransferred hcut.1 hcut.2
      · obtain ⟨hbase, hquoted⟩ := not_or.1 htransferred
        have hstate := hclosed hbase hquoted hcut.1
        rw [hcut.2] at hstate
        cases hstate
    · obtain ⟨start, hstart, hchars⟩ := works.characters octets front hread hstarts
        fun hshifts hstate => hcut ⟨hshifts, hstate⟩
      have hsound : REPLACEMENT ∉ start := fun hmem => hread (hstart.subset hmem)
      have hpopped := popped_start hsound hchars
      have hnone : REPLACEMENT ∉ popped '\r' (popped REPLACEMENT (chars front)) := by
        rw [hpopped]
        exact fun hmem => hsound ((popped_starts _ _).subset hmem)
      rw [serves_short_iff hcharset hencoding cap rfl fun _ => by
        rw [hpopped]
        exact foldBreaks_popped hstart]
      refine and_congr (iff_of_true hnone fun _ hshifts hstate => hcut ⟨hshifts, hstate⟩) Iff.rfl

/-- **The value served is right exactly where the two cuts mend their edges.** -/
theorem serves_iff (works : Works decoder leaf transfer chars) (asked budget : Nat)
    (hsize : content.length ≤ leaf.bytes)
    (hwhole : decode decoder leaf content big true = ⟨whole, false, false⟩) :
    (∃ raw, (valueOf (serving content) leaf (cap asked) budget).1 = .ok (some raw) ∧
      Serves (raw.decode decoder) whole (cap asked) (leaf.subtype = "html")) ↔
    Mends leaf transfer chars content whole (cap asked) budget := by
  have hraw : ∀ {raw : RawValue} {P : RawValue → Prop},
      (∃ raw', (Except.ok (some raw) : Except Failure (Option RawValue)) = .ok (some raw') ∧
        P raw') ↔ P raw := by
    intro raw P
    constructor
    · rintro ⟨_, ⟨⟩, h⟩
      exact h
    · exact fun h => ⟨raw, rfl, h⟩
  rw [valueOf_serving, hraw, RawValue.decode, Mends]
  dsimp only
  by_cases hall : content.length < reach leaf (cap asked) budget ∨
      leaf.bytes ≤ reach leaf (cap asked) budget
  · rw [decide_eq_true hall, List.take_of_length_le (by omega)]
    obtain ⟨text, hpart, hread, rfl, hcharset, hencoding⟩ := decode_whole hwhole
    refine iff_of_true ?_ (or_assoc.1 (.inl hall))
    rw [decode_eq, take_border_whole, hpart]
    exact serves_rendered hcharset hencoding _ hread
  · rw [decide_eq_false hall, serves_stopped_iff works _ _ hwhole, ← or_assoc]
    exact (or_iff_right hall).symm

/-! ## A page -/

/-- The characters of octets in us-ascii. -/
def asciiChars (octets : Bytes) : Text :=
  octets.map fun octet => if octet < 128 then Char.ofNat octet.toNat else REPLACEMENT

/-- A parser of the message with the header of a part in us-ascii and no transfer encoding. -/
def asciiDecoder (leaf : Leaf) : Decoder where
  parse message := some ⟨asciiChars (message.drop (mimeHeader leaf).length), false⟩
  charsetDecoder _ := false

/-- An HTML part in us-ascii. -/
def page : Leaf := ⟨"text", "html", [], "7bit", 19⟩

def pageText : Text := "<p>hi</p><a href=x>".toList

def pageContent : Bytes := pageText.map fun c => .ofNat c.toNat

theorem parse_ascii (leaf : Leaf) (bytes : Bytes) :
    (asciiDecoder leaf).parse (mimeHeader leaf ++ bytes) = some ⟨asciiChars bytes, false⟩ := by
  change some (Parsed.mk (asciiChars ((mimeHeader leaf ++ bytes).drop (mimeHeader leaf).length))
    false) = _
  rw [List.drop_left]

theorem partOf_ascii (leaf : Leaf) (bytes : Bytes) :
    partOf (asciiDecoder leaf) leaf bytes = ⟨asciiChars bytes, false⟩ := by
  rw [partOf, parse_ascii, Option.getD_some]

theorem works_page : Works (asciiDecoder page) page some asciiChars where
  reads bytes text := by
    rw [parse_ascii, Option.some.injEq, Parsed.mk.injEq]
    constructor
    · exact fun h => ⟨bytes, rfl, h.1⟩
    · rintro ⟨_, ⟨⟩, h⟩
      exact ⟨h, rfl⟩
  identity _ _ _ := rfl
  quartets h := absurd h (by decide)
  escapes h := absurd h (by decide)
  escaped h := absurd h (by decide)
  characters octets front _ h _ := ⟨asciiChars front, h.map _, .inl rfl⟩
  shifted h := absurd h (by decide)
  cutShift h := absurd h (by decide)

theorem page_whole :
    decode (asciiDecoder page) page pageContent 19 true = ⟨pageText, false, false⟩ := by
  rw [decode_eq, partOf_ascii]
  decide

/-- Served up to a border between tags, the page is right. -/
theorem serves_page : ∃ raw, (valueOf (serving pageContent) page (cap 9) MAX_BODY_WINDOWS).1 =
    .ok (some raw) ∧ Serves (raw.decode (asciiDecoder page)) pageText (cap 9) true := by
  refine (serves_iff works_page 9 MAX_BODY_WINDOWS (by decide) page_whole).2 (.inr (.inr ?_))
  rintro octets ⟨⟩
  refine ⟨fun _ hshifts => absurd hshifts (by decide), fun _ => .inr ?_⟩
  have hheld : heldText asciiChars ((pageContent.take (reach page (cap 9) MAX_BODY_WINDOWS)).take
      (border page (pageContent.take (reach page (cap 9) MAX_BODY_WINDOWS)) false)) =
      "<p>hi</p>".toList := by decide
  rw [hheld]
  rintro ⟨before, inside, more, after, hvalue, -, hopen, hclose⟩
  rw [List.mem_append, not_or] at hopen hclose
  have hlast : lastOpen (before ++ '<' :: inside) = some (before, inside) := lastOpen_inTag hopen.1
  rw [← hvalue] at hlast
  obtain ⟨-, rfl⟩ := Prod.mk.inj (Option.some.inj hlast)
  exact hclose.1 (by decide)

/-- The fetch stops the page inside its second tag, and nothing cuts the value before it: the value
holds no more octets than the cap. -/
theorem splits_tag :
    decode (asciiDecoder page) page pageContent 19 true = ⟨pageText, false, false⟩ ∧
      ¬ ∃ raw, (valueOf (serving pageContent) page (cap 14) MAX_BODY_WINDOWS).1 = .ok (some raw) ∧
        Serves (raw.decode (asciiDecoder page)) pageText (cap 14) true := by
  refine ⟨page_whole, ?_⟩
  rintro ⟨raw, hraw, hserves⟩
  rw [valueOf_serving] at hraw
  obtain rfl := Option.some.inj (Except.ok.inj hraw)
  have hvalue : (decode (asciiDecoder page) page
      (pageContent.take (reach page (cap 14) MAX_BODY_WINDOWS)) (cap 14)
      (decide (pageContent.length < reach page (cap 14) MAX_BODY_WINDOWS ∨
        page.bytes ≤ reach page (cap 14) MAX_BODY_WINDOWS))).value = "<p>hi</p><a hr".toList := by
    rw [decode_eq, partOf_ascii]
    decide
  refine hserves.outside rfl ⟨"<p>hi</p>".toList, "a hr".toList, "ef=x".toList, [], ?_, ?_, ?_, ?_⟩
  · exact hvalue
  · rw [RawValue.decode, hvalue]
    decide
  · decide
  · decide

end Huliho.Values
