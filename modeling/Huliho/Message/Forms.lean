import Huliho.Message.Fields

/-!
# The two copies of a message

What `rewritten` writes, as one list of fields: `stamped` puts the Date where the first Date stood,
or at the top, and drops the others; the Sent copy is that list with each field ended
(`sent_eq`), the wire copy is the same list without its blind fields (`wire_eq`). A field's name
does not depend on whether its last line is ended (`named_terminated`), so the wire copy reads back
with one Date and no blind field (`wire_reads`).
-/

namespace Huliho.Message

/-- Whether a field is one no wire copy carries. -/
def isBlind (field : Octets) : Bool := named field BLIND

/-- Whether a field is a Date. -/
def isDate (field : Octets) : Bool := named field [DATE]

/-! ## Names -/

theorem not_blind_of_date {field : Octets} (h : isDate field = true) : isBlind field = false := by
  unfold isDate isBlind named at *
  cases hn : (lines newline field).findSome? nameOf with
  | none => rfl
  | some name =>
    rw [hn] at h
    obtain rfl : name = DATE := by simpa using h
    decide

theorem nameFrom_crlf (name line : Octets) :
    nameFrom name (line ++ ascii "\r\n") = nameFrom name line := by
  induction line generalizing name with
  | nil => rfl
  | cons byte line ih =>
    rw [List.cons_append, nameFrom, nameFrom]
    simp only [ih]

/-- **A line end more does not change the name.** -/
theorem named_terminated (field : Octets) (names : List Octets) :
    named (terminated field) names = named field names := by
  by_cases hw : Whole newline field
  · rcases hw with rfl | hw
    · rfl
    · rw [terminated, if_pos hw]
  · have hl : lines newline (ascii "\r\n") = [ascii "\r\n"] := rfl
    obtain ⟨init, last, -, hfield, hboth⟩ := lines_of_open hw hl
    rw [terminated, if_neg fun hc => hw (.inr hc), named, named, hboth, hfield]
    simp only [List.findSome?_append, List.findSome?_cons, nameOf, nameFrom_crlf]

theorem isDate_terminated (field : Octets) : isDate (terminated field) = isDate field :=
  named_terminated field _

theorem isBlind_terminated (field : Octets) : isBlind (terminated field) = isBlind field :=
  named_terminated field _

theorem folded_terminated {field : Octets} (h : field ≠ []) :
    folded (terminated field) = folded field := by
  rw [terminated]
  split
  · rfl
  · exact folded_append h _

/-! ## What is written -/

/-- The first Date makes room for the stamp, the others leave. -/
def stampedFrom (stamp : Octets) : List Octets → List Octets
  | [] => []
  | field :: fields =>
    if isDate field then stamp :: fields.filter fun field => !isDate field
    else field :: stampedFrom stamp fields

/-- The fields with the stamp as their one Date, at the top where they have none. -/
def stamped (stamp : Octets) (fields : List Octets) : List Octets :=
  if fields.any isDate then stampedFrom stamp fields else stamp :: fields

/-- Whether a copy keeps a field that is no Date. -/
def keeps (wire : Bool) (field : Octets) : Bool := !(wire && isBlind field)

theorem keeps_wire : keeps true = fun field => !isBlind field := rfl

theorem keeps_sent : keeps false = fun _ => true := rfl

section
variable {stamp : Octets} {wire : Bool}

theorem keeps_of_date {field : Octets} (h : isDate field = true) : keeps wire field = true := by
  simp [keeps, not_blind_of_date h]

theorem rewriteField_eq (out : Octets) (written : Bool) (field : Octets) :
    rewriteField stamp wire (out, written) field =
      if isDate field then (if written then out else out ++ stamp, true)
      else if keeps wire field then (out ++ terminated field, written) else (out, written) := by
  rw [rewriteField, isDate, keeps, isBlind]
  cases named field [DATE] <;> cases written <;> cases wire <;> cases named field BLIND <;> rfl

theorem foldl_dated (fs : List Octets) (out : Octets) :
    fs.foldl (rewriteField stamp wire) (out, true) =
      (out ++ (((fs.filter (keeps wire)).filter fun f => !isDate f).map terminated).flatten,
        true) := by
  induction fs generalizing out with
  | nil => simp
  | cons f fs ih =>
    rw [List.foldl_cons, rewriteField_eq]
    by_cases hd : isDate f = true
    · simp [hd, ih, keeps_of_date hd]
    · by_cases hk : keeps wire f = true
      · simp [hd, hk, ih]
      · simp [hd, hk, ih]

theorem foldl_undated (hs : terminated stamp = stamp) (fs : List Octets) (out : Octets) :
    (fs.foldl (rewriteField stamp wire) (out, false)).1 =
      out ++ ((stampedFrom stamp (fs.filter (keeps wire))).map terminated).flatten := by
  induction fs generalizing out with
  | nil => simp [stampedFrom]
  | cons f fs ih =>
    rw [List.foldl_cons, rewriteField_eq]
    by_cases hd : isDate f = true
    · simp [hd, foldl_dated, keeps_of_date hd, stampedFrom, hs]
    · by_cases hk : keeps wire f = true
      · simp [hd, hk, ih, stampedFrom]
      · simp [hd, hk, ih]

theorem any_isDate_filter (fs : List Octets) :
    (fs.filter (keeps wire)).any isDate = fs.any isDate := by
  induction fs with
  | nil => rfl
  | cons f fs ih =>
    by_cases hd : isDate f = true
    · simp [hd, keeps_of_date hd]
    · by_cases hk : keeps wire f = true
      · simp [hd, hk, ih]
      · simp [hd, hk, ih]

theorem stampedFrom_of_none {fs : List Octets} (h : fs.any isDate = false) :
    stampedFrom stamp fs = fs := by
  induction fs with
  | nil => rfl
  | cons f fs ih =>
    rw [List.any_cons, Bool.or_eq_false_iff] at h
    rw [stampedFrom, if_neg (by simp [h.1]), ih h.2]

/-- **What `rewritten` writes**: the fields it keeps, stamped and ended, and the body. -/
theorem rewritten_eq (wire : Bool) (hs : terminated stamp = stamp) (fs : List Octets) (body : Octets) :
    rewritten fs body stamp wire =
      ((stamped stamp (fs.filter (keeps wire))).map terminated).flatten ++ body := by
  have hany : (fs.any fun field => named field [DATE]) = fs.any isDate := rfl
  simp only [rewritten, hany, stamped, any_isDate_filter]
  cases h : fs.any isDate with
  | true =>
    have hstart : (if (!true) = true then stamp else ([] : Octets), !true) = ([], false) := rfl
    rw [hstart, foldl_undated hs]
    rfl
  | false =>
    have hnone : ((fs.filter (keeps wire)).filter fun f => !isDate f) = fs.filter (keeps wire) := by
      refine List.filter_eq_self.2 fun f hf => ?_
      have := List.any_eq_false.1 h f (List.mem_filter.1 hf).1
      simpa using this
    have hstart : (if (!false) = true then stamp else ([] : Octets), !false) = (stamp, true) := rfl
    rw [hstart, foldl_dated, hnone]
    simp [hs]

end

/-- Dropping the blind fields and stamping go together. -/
theorem stamped_filter {stamp : Octets} (hs : isBlind stamp = false) (fs : List Octets) :
    stamped stamp (fs.filter fun f => !isBlind f) =
      (stamped stamp fs).filter fun f => !isBlind f := by
  have hfrom : ∀ fs : List Octets, stampedFrom stamp (fs.filter fun f => !isBlind f) =
      (stampedFrom stamp fs).filter fun f => !isBlind f := by
    intro fs
    induction fs with
    | nil => rfl
    | cons f fs ih =>
      by_cases hd : isDate f = true
      · simp [stampedFrom, hd, not_blind_of_date hd, hs, List.filter_filter, Bool.and_comm]
      · by_cases hb : isBlind f = true
        · simp [stampedFrom, hd, hb, ih]
        · simp [stampedFrom, hd, hb, ih]
  have hany : (fs.filter (keeps true)).any isDate = fs.any isDate := any_isDate_filter fs
  rw [keeps_wire] at hany
  rw [stamped, stamped, hany]
  split
  · exact hfrom fs
  · simp [hs]

/-- Every field but the Dates stays, in order, and the stamp is the one Date. -/
theorem stamped_dates {stamp : Octets} (hs : isDate stamp = true) (fs : List Octets) :
    ((stamped stamp fs).filter fun f => !isDate f) = fs.filter (fun f => !isDate f) ∧
      (stamped stamp fs).filter isDate = [stamp] := by
  have hfrom : ∀ fs : List Octets,
      ((stampedFrom stamp fs).filter fun f => !isDate f) = fs.filter (fun f => !isDate f) ∧
        (fs.any isDate = true → (stampedFrom stamp fs).filter isDate = [stamp]) := by
    intro fs
    induction fs with
    | nil => exact ⟨rfl, by simp⟩
    | cons f fs ih =>
      by_cases hd : isDate f = true
      · refine ⟨by simp [stampedFrom, hd, hs], fun _ => ?_⟩
        simp [stampedFrom, hd, hs, List.filter_filter]
      · refine ⟨by simp [stampedFrom, hd, ih.1], fun ha => ?_⟩
        rw [List.any_cons, Bool.or_eq_true, or_iff_right hd] at ha
        simp [stampedFrom, hd, ih.2 ha]
  rw [stamped]
  split
  · rename_i ha
    exact ⟨(hfrom fs).1, (hfrom fs).2 ha⟩
  · rename_i ha
    refine ⟨by simp [hs], ?_⟩
    have hnone : fs.filter isDate = [] := by
      refine List.filter_eq_nil_iff.2 fun f hf hd => ha (List.any_eq_true.2 ⟨f, hf, hd⟩)
    simp [hs, hnone]

/-! ## The stamp -/

/-- A moment is written on one line. -/
def Reader.OneLine (reader : Reader) : Prop := ∀ date, newline ∉ reader.rfc822 date

section
variable {reader : Reader} {date : Int}

theorem stampOf_eq (reader : Reader) (date : Int) :
    stampOf reader date = (ascii "Date: " ++ reader.rfc822 date ++ [13]) ++ [newline] := by
  simp [stampOf, ascii, newline]

theorem Reader.OneLine.lines (hr : reader.OneLine) :
    Huliho.lines newline (stampOf reader date) = [stampOf reader date] := by
  rw [stampOf_eq]
  refine lines_single ?_
  have h : newline ∉ ascii "Date: " := by decide
  simp only [List.mem_append, not_or]
  exact ⟨⟨h, hr date⟩, by decide⟩

theorem stamp_whole (reader : Reader) (date : Int) : Whole newline (stampOf reader date) := by
  rw [stampOf_eq]
  exact .inr (by simp)

theorem stamp_unfolded : folded (stampOf reader date) = false := rfl

theorem stamp_terminated (reader : Reader) (date : Int) :
    terminated (stampOf reader date) = stampOf reader date := by
  rcases stamp_whole reader date with hc | hw
  · rw [stampOf_eq] at hc
    simp at hc
  · rw [terminated, if_pos hw]

/-- A text that opens with the stamp is a Date. -/
theorem isDate_stamp (hr : reader.OneLine) (rest : Octets) :
    isDate (stampOf reader date ++ rest) = true := by
  have hname : nameOf (stampOf reader date) = some DATE := rfl
  rw [isDate, named, lines_append (stamp_whole reader date), hr.lines]
  simp [hname]

end

/-! ## Reading a copy back -/

/-- The fields of a copy: each ended, none with an empty line in it. -/
structure Ended (g : Octets) : Prop where
  field : IsField g
  whole : Whole newline g
  full : ∀ line ∈ Huliho.lines newline g, emptyLine line = false

/-- Ended fields, none but the first folded, read back in front of a body. -/
theorem Reads.of_ended {gs : List Octets} {body : Octets} (he : ∀ g ∈ gs, Ended g)
    (hh : ∀ g ∈ gs.tail, folded g = false) (hb : IsBody body) : Reads gs body := by
  have hwhole : ∀ g ∈ gs.dropLast, Whole newline g := fun g hg =>
    (he g (List.dropLast_subset _ hg)).whole
  refine ⟨⟨fun g hg => (he g hg).field, hh, hwhole⟩, fun line hl => ?_, hb, fun _ => ?_⟩
  · rw [lines_flatten_of_whole hwhole, List.mem_flatten] at hl
    obtain ⟨_, hin, hl⟩ := hl
    obtain ⟨g, hg, rfl⟩ := List.mem_map.1 hin
    exact (he g hg).full line hl
  · rcases List.eq_nil_or_concat gs with rfl | ⟨init, last, rfl⟩
    · exact .inl rfl
    · rw [List.concat_eq_append, List.flatten_append, List.flatten_singleton]
      have hlast := he last (by simp)
      exact hlast.whole.append hlast.field.1

/-- A field of a message is ended by `terminated`. -/
theorem Reads.ended {gs : List Octets} {body : Octets} (h : Reads gs body) {g : Octets}
    (hg : g ∈ gs) : Ended (terminated g) := by
  have hfield := h.fields.each g hg
  have hfull : ∀ line ∈ Huliho.lines newline g, emptyLine line = false := fun line hl => by
    refine h.full line ?_
    rw [lines_flatten_of_whole h.fields.whole, List.mem_flatten]
    exact ⟨_, List.mem_map_of_mem hg, hl⟩
  by_cases hw : g.getLast? = some newline
  · rw [terminated, if_pos hw]
    exact ⟨hfield, .inr hw, hfull⟩
  · have hl : Huliho.lines newline (ascii "\r\n") = [ascii "\r\n"] := rfl
    have hopen : ¬ Whole newline g := by
      rintro (hc | hc)
      · exact hfield.1 hc
      · exact hw hc
    obtain ⟨init, last, hlast, hlines, hboth⟩ := lines_of_open hopen hl
    have hne : last ≠ [] := ne_nil_of_mem_lines (by rw [hlines]; simp)
    rw [terminated, if_neg hw]
    have hcrlf : Whole newline (ascii "\r\n") := .inr rfl
    refine ⟨⟨by simp [ascii], fun line hline => ?_⟩, hcrlf.append (by decide),
      fun line hline => ?_⟩
    · rw [hboth] at hline
      have htail := hfield.2
      rw [hlines] at htail
      cases init with
      | nil => cases hline
      | cons first init =>
        rw [List.cons_append, List.tail_cons] at hline htail
        rcases List.mem_append.1 hline with hline | hline
        · exact htail line (List.mem_append_left _ hline)
        · rw [List.mem_singleton.1 hline, folded_append hne]
          exact htail last (by simp)
    · rw [hboth] at hline
      rcases List.mem_append.1 hline with hline | hline
      · exact hfull line (by rw [hlines]; exact List.mem_append_left _ hline)
      · rw [List.mem_singleton.1 hline, Bool.eq_false_iff]
        intro hc
        have hpos := List.length_pos_iff.2 hne
        have hlen : (ascii "\r\n").length = 2 ∧ (ascii "\n").length = 1 := ⟨rfl, rfl⟩
        rcases of_decide_eq_true hc with hc | hc
        · have := congrArg List.length hc
          rw [List.length_append] at this
          omega
        · have := congrArg List.length hc
          rw [List.length_append] at this
          omega

theorem mem_stamped {stamp g : Octets} {fs : List Octets} (h : g ∈ stamped stamp fs) :
    g = stamp ∨ g ∈ fs := by
  have hfrom : ∀ fs : List Octets, g ∈ stampedFrom stamp fs → g = stamp ∨ g ∈ fs := by
    intro fs
    induction fs with
    | nil => intro hg; cases hg
    | cons f fs ih =>
      intro hg
      rw [stampedFrom] at hg
      split at hg
      · rcases List.mem_cons.1 hg with rfl | hg
        · exact .inl rfl
        · exact .inr (List.mem_cons_of_mem _ (List.mem_filter.1 hg).1)
      · rcases List.mem_cons.1 hg with rfl | hg
        · exact .inr List.mem_cons_self
        · exact (ih hg).imp_right (List.mem_cons_of_mem _)
  rw [stamped] at h
  split at h
  · exact hfrom fs h
  · exact List.mem_cons.1 h

theorem mem_tail_stampedFrom {stamp g : Octets} {fs : List Octets} (hd : fs.any isDate = true)
    (h : g ∈ (stampedFrom stamp fs).tail) : g = stamp ∨ g ∈ fs.tail := by
  cases fs with
  | nil => cases h
  | cons f fs =>
    rw [stampedFrom] at h
    split at h
    · exact .inr (List.mem_filter.1 h).1
    · rename_i hf
      rw [List.any_cons, Bool.or_eq_true, or_iff_right hf] at hd
      have hin : g ∈ stamped stamp fs := by rwa [stamped, if_pos hd]
      exact mem_stamped hin

section
variable {reader : Reader} {date : Int}

theorem stamp_ended (hr : reader.OneLine) : Ended (stampOf reader date) := by
  refine ⟨⟨by rw [stampOf_eq]; simp, ?_⟩, stamp_whole reader date, ?_⟩
  · rw [hr.lines]
    simp
  · rw [hr.lines]
    intro line hl
    rw [List.mem_singleton.1 hl]
    rfl

theorem isDate_stampOf (hr : reader.OneLine) : isDate (stampOf reader date) = true := by
  have h : isDate (stampOf reader date ++ []) = true := isDate_stamp hr []
  rwa [List.append_nil] at h

/-- Ended fields behind the stamp, none of them a Date: the first may fold into the stamp, and the
stamp is still the one Date. -/
theorem exists_reads_top (hr : reader.OneLine) {fs : List Octets} {body : Octets}
    (he : ∀ f ∈ fs, Ended f) (hh : ∀ f ∈ fs.tail, folded f = false)
    (hd : ∀ f ∈ fs, isDate f = false) (hb : IsBody body) :
    ∃ gs, Reads gs body ∧ gs.flatten = (stampOf reader date :: fs).flatten ∧
      gs.countP isDate = 1 ∧ ∀ g ∈ gs, isDate g = true ∨ g ∈ fs := by
  have hnone : fs.countP isDate = 0 := by
    rw [List.countP_eq_zero]
    intro f hf
    simp [hd f hf]
  have hstamp : isDate (stampOf reader date) = true := isDate_stampOf hr
  by_cases hfirst : ∀ f ∈ fs.head?, folded f = false
  · refine ⟨stampOf reader date :: fs, Reads.of_ended (fun g hg => ?_) (fun g hg => ?_) hb, rfl,
      ?_, fun g hg => ?_⟩
    · rcases List.mem_cons.1 hg with rfl | hg
      · exact stamp_ended hr
      · exact he g hg
    · rw [List.tail_cons] at hg
      cases fs with
      | nil => cases hg
      | cons f fs =>
        rcases List.mem_cons.1 hg with rfl | hg
        · exact hfirst g rfl
        · exact hh g hg
    · rw [List.countP_cons_of_pos hstamp, hnone]
    · rcases List.mem_cons.1 hg with rfl | hg
      · exact .inl hstamp
      · exact .inr hg
  · -- the first field opens with white space, so it reads as a fold of the stamp
    cases fs with
    | nil => exact absurd (by simp) hfirst
    | cons f fs =>
      have hf : folded f = true := by simpa using hfirst
      have hef := he f List.mem_cons_self
      have hjoined : isDate (stampOf reader date ++ f) = true := isDate_stamp hr f
      have hlines : Huliho.lines newline (stampOf reader date ++ f) =
          stampOf reader date :: Huliho.lines newline f := by
        rw [lines_append (stamp_whole reader date), hr.lines]
        rfl
      refine ⟨(stampOf reader date ++ f) :: fs, Reads.of_ended (fun g hg => ?_) hh hb, by simp,
        ?_, fun g hg => ?_⟩
      · rcases List.mem_cons.1 hg with rfl | hg
        · refine ⟨⟨by rw [stampOf_eq]; simp, fun line hl => ?_⟩, hef.whole.append hef.field.1,
            fun line hl => ?_⟩
          · rw [hlines, List.tail_cons] at hl
            obtain ⟨first, rest, hcons⟩ :=
              List.exists_cons_of_ne_nil (lines_ne_nil hef.field.1 : Huliho.lines newline f ≠ [])
            rw [hcons] at hl
            rcases List.mem_cons.1 hl with rfl | hl
            · rw [← folded_flatten hcons, hf]
            · exact hef.field.2 line (by rw [hcons]; exact hl)
          · rw [hlines] at hl
            rcases List.mem_cons.1 hl with rfl | hl
            · exact (stamp_ended hr).full _ (by rw [hr.lines]; exact List.mem_cons_self)
            · exact hef.full line hl
        · exact he g (List.mem_cons_of_mem _ hg)
      · rw [List.countP_cons_of_pos hjoined]
        rw [List.countP_cons_of_neg (by simp [hd f List.mem_cons_self])] at hnone
        rw [hnone]
      · rcases List.mem_cons.1 hg with rfl | hg
        · exact .inl hjoined
        · exact .inr (List.mem_cons_of_mem _ hg)

/-- **A stamped copy reads back** with one Date and, of its other fields, those it was written
from. -/
theorem exists_reads (hr : reader.OneLine) (date : Int) {fs : List Octets} {body : Octets}
    (he : ∀ f ∈ fs, Ended f) (hh : ∀ f ∈ fs.tail, folded f = false) (hb : IsBody body) :
    ∃ gs, Reads gs body ∧ gs.flatten = (stamped (stampOf reader date) fs).flatten ∧
      gs.countP isDate = 1 ∧ ∀ g ∈ gs, isDate g = true ∨ g ∈ fs := by
  have hstamp : isDate (stampOf reader date) = true := isDate_stampOf hr
  cases hd : fs.any isDate with
  | false =>
    rw [stamped, if_neg (by simp [hd])]
    exact exists_reads_top hr he hh (fun f hf => by simpa using List.any_eq_false.1 hd f hf) hb
  | true =>
    have hone := (stamped_dates hstamp fs).2
    rw [stamped, if_pos hd] at hone ⊢
    refine ⟨stampedFrom (stampOf reader date) fs, Reads.of_ended (fun g hg => ?_) (fun g hg => ?_)
      hb, rfl, ?_, fun g hg => ?_⟩
    · rcases mem_stamped (by rw [stamped, if_pos hd]; exact hg) with rfl | hg
      · exact stamp_ended hr
      · exact he g hg
    · rcases mem_tail_stampedFrom hd hg with rfl | hg
      · exact stamp_unfolded
      · exact hh g hg
    · rw [List.countP_eq_length_filter, hone]
      rfl
    · rcases mem_stamped (by rw [stamped, if_pos hd]; exact hg) with rfl | hg
      · exact .inl hstamp
      · exact .inr hg

/-! ## The copies of a message -/

/-- Ending the fields and stamping go together. -/
theorem stamped_terminated (fs : List Octets) :
    (stamped (stampOf reader date) fs).map terminated =
      stamped (stampOf reader date) (fs.map terminated) := by
  have hfrom : ∀ fs : List Octets, (stampedFrom (stampOf reader date) fs).map terminated =
      stampedFrom (stampOf reader date) (fs.map terminated) := by
    intro fs
    induction fs with
    | nil => rfl
    | cons f fs ih =>
      rw [stampedFrom, List.map_cons, stampedFrom, isDate_terminated]
      split
      · rw [List.map_cons, stamp_terminated, List.filter_map]
        congr 3
        funext g
        simp [isDate_terminated]
      · rw [List.map_cons, ih]
  have hany : (fs.map terminated).any isDate = fs.any isDate := by
    rw [List.any_map]
    congr 1
    funext g
    exact isDate_terminated g
  rw [stamped, stamped, hany]
  split
  · exact hfrom fs
  · rw [List.map_cons, stamp_terminated]

/-- The fields of a message the wire copy keeps. -/
def openFields (message : Octets) : List Octets :=
  (fieldsOf message).filter fun field => !isBlind field

theorem wire_eq (message : Octets) :
    (forms reader message date).wire =
      ((stamped (stampOf reader date) (openFields message)).map terminated).flatten ++
        bodyOf message :=
  rewritten_eq true (stamp_terminated reader date) _ _

theorem sent_eq (message : Octets) :
    (forms reader message date).sent =
      ((stamped (stampOf reader date) (fieldsOf message)).map terminated).flatten ++
        bodyOf message := by
  have h := rewritten_eq false (stamp_terminated reader date) (fieldsOf message) (bodyOf message)
  rw [keeps_sent, List.filter_true] at h
  exact h

/-- **The wire copy reads back** with one Date, no blind field and the body of the message. -/
theorem wire_reads (hr : reader.OneLine) (message : Octets) (date : Int) :
    (fieldsOf (forms reader message date).wire).countP isDate = 1 ∧
      (∀ field ∈ fieldsOf (forms reader message date).wire, isBlind field = false) ∧
      bodyOf (forms reader message date).wire = bodyOf message := by
  have hreads := (reads message).1
  have hopen : ∀ f ∈ (openFields message).map terminated, Ended f ∧ isBlind f = false := by
    intro f hf
    obtain ⟨g, hg, rfl⟩ := List.mem_map.1 hf
    obtain ⟨hg, hb⟩ := List.mem_filter.1 hg
    exact ⟨hreads.ended hg, by rw [isBlind_terminated]; simpa using hb⟩
  have hheads : ∀ f ∈ ((openFields message).map terminated).tail, folded f = false := by
    intro f hf
    rw [← List.map_tail] at hf
    obtain ⟨g, hg, rfl⟩ := List.mem_map.1 hf
    have hsub : (openFields message).tail.Sublist (fieldsOf message).tail :=
      List.filter_sublist.tail
    have hin := hsub.subset hg
    rw [folded_terminated (hreads.fields.each g (List.mem_of_mem_tail hin)).1]
    exact hreads.fields.heads g hin
  obtain ⟨gs, hgs, hflat, hone, hmem⟩ := exists_reads hr date (fun f hf => (hopen f hf).1)
    hheads hreads.rest
  rw [wire_eq, stamped_terminated, ← hflat, hgs.cut.1, hgs.cut.2]
  refine ⟨hone, fun g hg => ?_, rfl⟩
  rcases hmem g hg with hd | hg
  · exact not_blind_of_date hd
  · exact (hopen g hg).2

end

end Huliho.Message
