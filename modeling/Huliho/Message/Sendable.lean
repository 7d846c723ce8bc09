import Huliho.Message.Forms

/-!
# Blind recipients stay behind

A Bcc field is what a writer of one may spell: the name in any case, spaces or tabs before the
colon, any value with any folds (`Bcc`). `Alters` adds, removes and changes such fields at any
place, and **`wire_of_alters`** says that the wire copy does not move. `sendable_forms` is what a
message that goes out shows to whom.
-/

namespace Huliho.Message

/-- A Bcc or Resent-Bcc field as a writer may spell it. -/
def Bcc (field : Octets) : Prop :=
  ∃ name gap value, field = name ++ gap ++ colon :: value ∧
    name.map toAsciiLowercase ∈ BLIND ∧ ∀ byte ∈ gap, byte = 32 ∨ byte = 9

/-- The second list comes of the first by adding, removing or changing Bcc fields; the line end of
a field that stays may be missing in one of them. -/
inductive Alters : List Octets → List Octets → Prop
  | nil : Alters [] []
  | keep {f g : Octets} {xs ys : List Octets} (h : terminated f = terminated g)
      (rest : Alters xs ys) : Alters (f :: xs) (g :: ys)
  | drop {f : Octets} {xs ys : List Octets} (h : Bcc f) (rest : Alters xs ys) :
      Alters (f :: xs) ys
  | add {g : Octets} {xs ys : List Octets} (h : Bcc g) (rest : Alters xs ys) :
      Alters xs (g :: ys)

/-! ## Every spelling is read -/

/-- A byte that stands for itself in a field name. -/
def Plain (byte : UInt8) : Prop :=
  byte ≠ colon ∧ byte ≠ newline ∧ isAsciiWhitespace byte = false

theorem nameFrom_plain {name : Octets} (h : ∀ byte ∈ name, Plain byte) (read line : Octets) :
    nameFrom read (name ++ line) = nameFrom (read ++ name.map toAsciiLowercase) line := by
  induction name generalizing read with
  | nil => simp
  | cons byte name ih =>
    obtain ⟨hc, hn, hw⟩ := h byte List.mem_cons_self
    rw [List.cons_append, nameFrom, if_neg hc, if_neg hn, if_neg (by simp [hw]),
      ih fun b hb => h b (List.mem_cons_of_mem _ hb)]
    simp

theorem nameFrom_gap {gap : Octets} (h : ∀ byte ∈ gap, byte = 32 ∨ byte = 9)
    (read line : Octets) : nameFrom read (gap ++ line) = nameFrom read line := by
  induction gap with
  | nil => rfl
  | cons byte gap ih =>
    rw [List.cons_append, nameFrom]
    rcases h byte List.mem_cons_self with rfl | rfl
    · exact ih fun b hb => h b (List.mem_cons_of_mem _ hb)
    · exact ih fun b hb => h b (List.mem_cons_of_mem _ hb)

/-- A byte whose lower case is a letter of a blind name, or its hyphen, is plain. -/
theorem plain_of_lower {byte : UInt8}
    (h : toAsciiLowercase byte ∈ ascii "bcc" ∨ toAsciiLowercase byte ∈ ascii "resent-bcc") :
    Plain byte := by
  refine ⟨?_, ?_, Bool.eq_false_iff.2 fun hw => ?_⟩
  · rintro rfl
    exact absurd h (by decide)
  · rintro rfl
    exact absurd h (by decide)
  · rcases of_decide_eq_true hw with rfl | rfl | rfl | rfl | rfl
    · exact absurd h (by decide)
    · exact absurd h (by decide)
    · exact absurd h (by decide)
    · exact absurd h (by decide)
    · exact absurd h (by decide)

theorem blind_plain {name : Octets} (h : name.map toAsciiLowercase ∈ BLIND) :
    ∀ byte ∈ name, Plain byte := by
  intro byte hb
  have hin := List.mem_map_of_mem (f := toAsciiLowercase) hb
  refine plain_of_lower ?_
  rcases List.mem_cons.1 h with h | h
  · exact .inl (h ▸ hin)
  · exact .inr (List.mem_singleton.1 h ▸ hin)

/-- **Every spelling of a blind field is read as one.** -/
theorem Bcc.blind {field : Octets} (h : Bcc field) : isBlind field = true := by
  obtain ⟨name, gap, value, rfl, hname, hgap⟩ := h
  have hplain := blind_plain hname
  have hne : name.map toAsciiLowercase ≠ [] := by
    intro hc
    rw [hc] at hname
    exact absurd hname (by decide)
  obtain ⟨first, rest, hvalue⟩ := List.exists_cons_of_ne_nil
    (lines_ne_nil (by simp) : lines newline (colon :: value) ≠ [])
  have hcolon : ∃ tail, first = colon :: tail := by
    rw [lines, if_neg (by decide)] at hvalue
    cases hl : lines newline value with
    | nil => rw [hl] at hvalue; exact ⟨[], (List.cons.inj hvalue).1.symm⟩
    | cons line ls => rw [hl] at hvalue; exact ⟨line, (List.cons.inj hvalue).1.symm⟩
  obtain ⟨tail, rfl⟩ := hcolon
  have hfree : newline ∉ name ++ gap := by
    rw [List.mem_append, not_or]
    refine ⟨fun hin => (hplain _ hin).2.1 rfl, fun hin => ?_⟩
    rcases hgap _ hin with hc | hc
    · exact absurd hc (by decide)
    · exact absurd hc (by decide)
  have hlines := lines_prefix hfree hvalue
  have hread : nameOf (name ++ gap ++ colon :: tail) = some (name.map toAsciiLowercase) := by
    rw [nameOf, List.append_assoc, nameFrom_plain hplain, nameFrom_gap hgap, List.nil_append,
      nameFrom, if_pos rfl, if_neg hne]
  rw [isBlind, named, hlines, List.findSome?_cons, hread]
  simpa using hname

/-! ## The wire copy does not move -/

theorem Alters.open_eq {xs ys : List Octets} (h : Alters xs ys) :
    (xs.filter fun f => !isBlind f).map terminated =
      (ys.filter fun f => !isBlind f).map terminated := by
  induction h with
  | nil => rfl
  | @keep f g xs ys hfg _ ih =>
    have hb : isBlind f = isBlind g := by
      rw [← isBlind_terminated f, hfg, isBlind_terminated]
    cases hg : isBlind g with
    | true => simp [hb, hg, ih]
    | false => simp [hb, hg, ih, hfg]
  | drop hf _ ih => simp [hf.blind, ih]
  | add hg _ ih => simp [hg.blind, ih]

/-- **The wire copy does not depend on the blind fields.** -/
theorem wire_of_alters {reader : Reader} {message body : Octets} {date : Int} {ys : List Octets}
    (hr : Reads ys body) (hb : body = bodyOf message) (ha : Alters (fieldsOf message) ys) :
    (forms reader (ys.flatten ++ body) date).wire = (forms reader message date).wire := by
  rw [wire_eq, wire_eq, openFields, openFields, hr.cut.1, hr.cut.2, stamped_terminated,
    stamped_terminated, ha.open_eq, hb]

/-! ## What goes out -/

theorem sendable_eq_ok {reader : Reader} {message : Octets} {date : Int} {copies : Forms}
    (h : sendable reader message date = .ok copies) :
    copies = forms reader message date ∧
      (∀ name ∈ reader.names copies.wire, blind name = false) ∧
      (reader.names copies.wire).countP dated = 1 := by
  simp only [sendable] at h
  split at h
  · rename_i hagreed
    obtain rfl := Except.ok.inj h
    simp only [Bool.and_eq_true, Bool.not_eq_true', beq_iff_eq] at hagreed
    refine ⟨rfl, fun name hname => ?_, hagreed.1.2⟩
    simpa using List.any_eq_false.1 hagreed.1.1 name hname
  · cases h

/-- A field is ended as it stands, unless it is the last of a message without an empty line. -/
theorem terminated_eq (message : Octets) {field : Octets} (h : field ∈ fieldsOf message) :
    terminated field = field ∨ (bodyOf message = [] ∧ (fieldsOf message).getLast? = some field ∧
      terminated field = field ++ ascii "\r\n") := by
  have hreads := (reads message).1
  by_cases hlast : field.getLast? = some newline
  · exact .inl (by rw [terminated, if_pos hlast])
  · right
    have hopen : ¬ Whole newline field := by
      rintro (hc | hc)
      · exact (hreads.fields.each field h).1 hc
      · exact hlast hc
    rcases List.eq_nil_or_concat (fieldsOf message) with hnil | ⟨init, last, hconcat⟩
    · rw [hnil] at h
      cases h
    · rw [List.concat_eq_append] at hconcat
      have hwhole := hreads.fields.whole
      rw [hconcat, List.dropLast_concat] at hwhole
      obtain rfl : field = last := by
        rw [hconcat] at h
        rcases List.mem_append.1 h with h | h
        · exact absurd (hwhole field h) hopen
        · exact List.mem_singleton.1 h
      refine ⟨?_, by rw [hconcat]; simp, by rw [terminated, if_neg hlast]⟩
      by_contra hbody
      have hflat := hreads.whole hbody
      rw [hconcat, List.flatten_append, List.flatten_singleton] at hflat
      have hne := (hreads.fields.each field (by rw [hconcat]; simp)).1
      rcases hflat with hc | hc
      · exact hne (List.append_eq_nil_iff.1 hc).2
      · rw [List.getLast?_append_of_ne_nil _ hne] at hc
        exact hlast hc

/-- **What a message that goes out shows.** Its wire copy does not depend on its blind fields and,
as the recipient reader and as this module read it, carries one Date and no blind field. Both
copies are one list of fields — every field of the message but its Dates, in order, and the stamp —
in front of the body of the message, the wire copy without the blind ones; a field stands byte for
byte, but that a last field the message leaves open is ended. -/
theorem sendable_forms {reader : Reader} (hr : reader.OneLine) {message : Octets} {date : Int}
    {copies : Forms} (h : sendable reader message date = .ok copies) :
    (∀ ys copies', Reads ys (bodyOf message) → Alters (fieldsOf message) ys →
      sendable reader (ys.flatten ++ bodyOf message) date = .ok copies' →
        copies'.wire = copies.wire) ∧
    ((reader.names copies.wire).countP dated = 1 ∧
      (∀ name ∈ reader.names copies.wire, blind name = false) ∧
      (fieldsOf copies.wire).countP isDate = 1 ∧
      ∀ field ∈ fieldsOf copies.wire, isBlind field = false ∧ ¬ Bcc field) ∧
    (∃ chunks : List Octets,
      copies.sent = (chunks.map terminated).flatten ++ bodyOf message ∧
      copies.wire = ((chunks.filter fun f => !isBlind f).map terminated).flatten ++
        bodyOf message ∧
      (chunks.filter fun f => !isDate f) = ((fieldsOf message).filter fun f => !isDate f) ∧
      chunks.filter isDate = [stampOf reader date]) ∧
    message = (fieldsOf message).flatten ++ bodyOf message ∧
    ∀ field ∈ fieldsOf message, terminated field = field ∨
      (bodyOf message = [] ∧ (fieldsOf message).getLast? = some field ∧
        terminated field = field ++ ascii "\r\n") := by
  obtain ⟨rfl, hblind, hdate⟩ := sendable_eq_ok h
  obtain ⟨hone, hnone, -⟩ := wire_reads hr message date
  have hstamp : isDate (stampOf reader date) = true := isDate_stampOf hr
  refine ⟨fun ys copies' hys ha hs => ?_, ⟨hdate, hblind, hone, fun field hf =>
    ⟨hnone field hf, fun hb => ?_⟩⟩, ⟨stamped (stampOf reader date) (fieldsOf message),
    sent_eq message, ?_, stamped_dates hstamp _⟩, (reads message).2.symm, fun field hf =>
    terminated_eq message hf⟩
  · obtain ⟨rfl, -⟩ := sendable_eq_ok hs
    exact wire_of_alters hys rfl ha
  · have := hnone field hf
    rw [hb.blind] at this
    cases this
  · rw [wire_eq, openFields, stamped_filter (not_blind_of_date hstamp)]

/-! ## Concrete messages -/

/-- The name of a field as the parser answers it. -/
def headerName (name : Octets) : HeaderName :=
  if name = ascii "bcc" then .bcc
  else if name = ascii "resent-bcc" then .resentBcc
  else if name = ascii "date" then .date
  else .other (String.ofList (name.map fun byte => Char.ofNat byte.toNat))

/-- A reader that finds the fields this module finds, on one day. -/
def plainReader : Reader where
  names bytes := (fieldsOf bytes).filterMap fun field =>
    ((lines newline field).findSome? nameOf).map headerName
  rfc822 _ := ascii "Tue, 3 Nov 2026 12:00:00 +0000"

theorem plainReader_oneLine : plainReader.OneLine := fun _ => by
  show newline ∉ ascii "Tue, 3 Nov 2026 12:00:00 +0000"
  decide

def draft : Octets := ascii "To: a\r\nBcc: b,\r\n c\r\nDATE : d\r\n\r\nBcc: e"

def draftCopies : Forms where
  wire := ascii "To: a\r\nDate: Tue, 3 Nov 2026 12:00:00 +0000\r\n\r\nBcc: e"
  sent := ascii "To: a\r\nBcc: b,\r\n c\r\nDate: Tue, 3 Nov 2026 12:00:00 +0000\r\n\r\nBcc: e"

theorem draft_sendable : sendable plainReader draft 1793707200 = .ok draftCopies := by
  decide +kernel

/-- The copies of a draft with a folded Bcc, and its wire copy once the Bcc is gone. -/
theorem sendable_forms_draft :
    ((∀ field ∈ fieldsOf draftCopies.wire, isBlind field = false ∧ ¬ Bcc field) ∧
      (fieldsOf draftCopies.wire).countP isDate = 1) ∧
    draft = (fieldsOf draft).flatten ++ bodyOf draft :=
  have h := sendable_forms plainReader_oneLine draft_sendable
  ⟨⟨h.2.1.2.2.2, h.2.1.2.2.1⟩, h.2.2.2.1⟩

/-- A message of one line without its end goes out, and the wire copy does not hold that line byte
for byte between its other fields and its body. -/
theorem open_line_ended :
    ∃ copies, sendable plainReader (ascii "Subject: x") 1793707200 = .ok copies ∧
      ¬ ∃ before rest : List Octets,
        before ++ rest = (fieldsOf (ascii "Subject: x")).filter (fun f => !isBlind f && !isDate f) ∧
        copies.wire = before.flatten ++ stampOf plainReader 1793707200 ++ rest.flatten ++
          bodyOf (ascii "Subject: x") := by
  refine ⟨⟨ascii "Date: Tue, 3 Nov 2026 12:00:00 +0000\r\nSubject: x\r\n",
    ascii "Date: Tue, 3 Nov 2026 12:00:00 +0000\r\nSubject: x\r\n"⟩, by decide +kernel, ?_⟩
  rintro ⟨before, rest, hfields, hwire⟩
  have hlen := congrArg List.length hwire
  have hkept := congrArg (fun gs : List Octets => gs.flatten.length) hfields
  have hline : (((fieldsOf (ascii "Subject: x")).filter
      (fun f => !isBlind f && !isDate f)).flatten.length = 10) := by decide +kernel
  have hstamp : (stampOf plainReader 1793707200).length = 38 := by decide +kernel
  have hbody : (bodyOf (ascii "Subject: x")).length = 0 := by decide +kernel
  have hcopy : (ascii "Date: Tue, 3 Nov 2026 12:00:00 +0000\r\nSubject: x\r\n").length = 50 := by
    decide +kernel
  simp only [List.length_append, List.flatten_append] at hlen hkept
  omega

end Huliho.Message
