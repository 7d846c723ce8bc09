import Mathlib.Data.List.Basic
import Mathlib.Data.List.TakeWhile

/-!
# Flowed text

`text/flowed.ts`: the paragraphs of a text of format flowed (RFC 3676). A text is its UTF-16 units,
and every mark the format reads is one unit.

A sender writes a paragraph in many ways: `Cut` is where its lines break, `Stuffed` the space ahead of
one, `Writes` the whole text with its line ends. `unflow` undoes each of these on one line
(`lineOf_raw`), then over the lines of a paragraph (`read_paragraph`), and so gives back the
paragraphs of any writing (**`unflow_writes`**).
-/

namespace Huliho.Flowed

/-- A text as its UTF-16 units. -/
abbrev Text := List UInt16

/-- The units of a text of Latin characters. -/
def latin (text : String) : Text := text.toList.map fun c => .ofNat c.toNat

def LF : UInt16 := 10

def CR : UInt16 := 13

def SPACE : UInt16 := 32

def QUOTE_MARK : UInt16 := 62

/-- The signature separator, neither flowed nor fixed. -/
def SEPARATOR : Text := [45, 45, 32]

/-- A paragraph of plain text and how deep it is quoted. -/
structure QuotedLine where
  depth : Nat
  text : Text
deriving DecidableEq

/-! ## Reading -/

structure Line where
  depth : Nat
  text : Text
  flowed : Bool
  separator : Bool
deriving DecidableEq

/-- A line without the carriage return at its end. -/
def dropReturn (line : Text) : Text := if line.getLast? = some CR then line.dropLast else line

/-- A text that ends in a line break has no line after it. -/
def linesOf (text : Text) : List Text :=
  let lines := text.splitOn LF
  (if lines.getLast? = some [] then lines.dropLast else lines).map dropReturn

def quoteDepth (line : Text) : Nat := (line.takeWhile (· = QUOTE_MARK)).length

/-- Quote marks come off first, then one stuffing space, then the flow space that DelSp deletes. -/
def lineOf (raw : Text) (delSp : Bool) : Line :=
  let depth := quoteDepth raw
  let content := raw.drop (if raw[depth]? = some SPACE then depth + 1 else depth)
  let separator := decide (content = SEPARATOR)
  let flowed := decide (content.getLast? = some SPACE) && !separator
  ⟨depth, if flowed && delSp then content.dropLast else content, flowed, separator⟩

/-- The paragraphs so far: those that ended, and the last one while it takes lines. -/
structure Reading where
  ended : List (Nat × List Text)
  current : Option (Nat × List Text)

/-- One more line. A flowed line ends its paragraph before another depth or a separator. -/
def Reading.add (reading : Reading) (line : Line) : Reading :=
  let (ended, paragraph) :=
    match reading.current with
    | some (depth, parts) =>
      if depth ≠ line.depth ∨ line.separator then
        (reading.ended ++ [(depth, parts)], (line.depth, [line.text]))
      else (reading.ended, (depth, parts ++ [line.text]))
    | none => (reading.ended, (line.depth, [line.text]))
  if line.flowed then ⟨ended, some paragraph⟩ else ⟨ended ++ [paragraph], none⟩

def Reading.paragraphs (reading : Reading) : List QuotedLine :=
  (reading.ended ++ reading.current.toList).map fun (depth, parts) => ⟨depth, parts.flatten⟩

/-- The paragraphs of a flowed text. -/
def unflow (text : Text) (delSp : Bool) : List QuotedLine :=
  ((linesOf text).foldl (fun (reading : Reading) raw => reading.add (lineOf raw delSp))
    ⟨[], none⟩).paragraphs

/-! ## Writing -/

/-- A paragraph a sender can write: the separator, or a text of one line that does not end in a
space. -/
def Writable (paragraph : QuotedLine) : Prop :=
  paragraph.text = SEPARATOR ∨
    (LF ∉ paragraph.text ∧ CR ∉ paragraph.text ∧ paragraph.text.getLast? ≠ some SPACE)

/-- A piece of a paragraph as a flowed line: it ends in a space of its own, or DelSp puts one
there. -/
def Flows (delSp : Bool) (piece content : Text) : Prop :=
  content ≠ SEPARATOR ∧
    if delSp then piece ≠ [] ∧ content = piece ++ [SPACE]
    else piece.getLast? = some SPACE ∧ content = piece

/-- The contents of the lines a paragraph is cut into: flowed ones and a fixed last one. The
separator is a line. -/
def Cut (delSp : Bool) (text : Text) (contents : List Text) : Prop :=
  if text = SEPARATOR then contents = [SEPARATOR]
  else ∃ pieces flowed last, text = pieces.flatten ++ last ∧ contents = flowed ++ [last] ∧
    List.Forall₂ (Flows delSp) pieces flowed

/-- A line that opens with a space, a quote mark or "From " has to be stuffed. -/
def MustStuff (content : Text) : Prop :=
  [SPACE] <+: content ∨ [QUOTE_MARK] <+: content ∨ latin "From " <+: content

/-- A line stuffed with one space, or as it is where it need not be. -/
def Stuffed (content line : Text) : Prop :=
  line = SPACE :: content ∨ (line = content ∧ ¬ MustStuff content)

/-- The line of a paragraph quoted so deep. -/
def Raw (depth : Nat) (content raw : Text) : Prop :=
  ∃ line, Stuffed content line ∧ raw = List.replicate depth QUOTE_MARK ++ line

/-- The lines of some paragraphs. -/
inductive Lined (delSp : Bool) : List QuotedLine → List Text → Prop
  | nil : Lined delSp [] []
  | cons {paragraph : QuotedLine} {paragraphs : List QuotedLine} {contents raws lines : List Text}
    (hcut : Cut delSp paragraph.text contents)
    (hraw : List.Forall₂ (Raw paragraph.depth) contents raws)
    (hrest : Lined delSp paragraphs lines) : Lined delSp (paragraph :: paragraphs) (raws ++ lines)

/-- A text of lines, each ended by LF or CRLF. -/
inductive Ended : List Text → Text → Prop
  | nil : Ended [] []
  | lf {line : Text} {lines : List Text} {text : Text} (h : Ended lines text) :
    Ended (line :: lines) (line ++ LF :: text)
  | crlf {line : Text} {lines : List Text} {text : Text} (h : Ended lines text) :
    Ended (line :: lines) (line ++ CR :: LF :: text)

/-- A writing of some paragraphs. -/
def Writes (delSp : Bool) (paragraphs : List QuotedLine) (text : Text) : Prop :=
  ∃ lines, Lined delSp paragraphs lines ∧ Ended lines text

/-! ## Lines -/

variable {delSp : Bool} {depth : Nat} {text content line raw : Text} {lines contents raws : List Text}

theorem dropReturn_concat : dropReturn (line ++ [CR]) = line := by
  simp [dropReturn]

theorem dropReturn_of_notMem (h : CR ∉ line) : dropReturn line = line := by
  rw [dropReturn, if_neg]
  exact fun hlast => h (List.mem_of_getLast? hlast)

/-- **The lines come back**, whichever way each ends. -/
theorem linesOf_ended (h : Ended lines text) (hlines : ∀ line ∈ lines, LF ∉ line ∧ CR ∉ line) :
    linesOf text = lines := by
  have hsplit : ∃ raws : List Text, text.splitOn LF = raws ++ [[]] ∧
      raws.map dropReturn = lines := by
    induction h with
    | nil => exact ⟨[], rfl, rfl⟩
    | @lf line lines text _ ih =>
      obtain ⟨raws, hraws, hdrop⟩ := ih fun line hline => hlines line (List.mem_cons_of_mem _ hline)
      obtain ⟨hlf, hcr⟩ := hlines line List.mem_cons_self
      refine ⟨line :: raws, ?_, ?_⟩
      · rw [List.splitOn_append_cons_self, List.splitOn_eq_singleton hlf, hraws]
        rfl
      · rw [List.map_cons, hdrop, dropReturn_of_notMem hcr]
    | @crlf line lines text _ ih =>
      obtain ⟨raws, hraws, hdrop⟩ := ih fun line hline => hlines line (List.mem_cons_of_mem _ hline)
      obtain ⟨hlf, -⟩ := hlines line List.mem_cons_self
      have hlf' : LF ∉ line ++ [CR] := by
        rw [List.mem_append, not_or]
        exact ⟨hlf, by decide⟩
      refine ⟨(line ++ [CR]) :: raws, ?_, ?_⟩
      · have hcut : line ++ CR :: LF :: text = (line ++ [CR]) ++ LF :: text := by simp
        rw [hcut, List.splitOn_append_cons_self, List.splitOn_eq_singleton hlf', hraws]
        rfl
      · rw [List.map_cons, hdrop, dropReturn_concat]
  obtain ⟨raws, hraws, hdrop⟩ := hsplit
  unfold linesOf
  simp only [hraws, List.getLast?_concat, if_true, List.dropLast_concat, hdrop]

/-- A line to be read: the text of a paragraph it carries, flowed or not. -/
def readAs (depth : Nat) (content : Text) (delSp : Bool) : Line :=
  let separator := decide (content = SEPARATOR)
  let flowed := decide (content.getLast? = some SPACE) && !separator
  ⟨depth, if flowed && delSp then content.dropLast else content, flowed, separator⟩

theorem quoteDepth_append (h : ∀ unit ∈ line.head?, unit ≠ QUOTE_MARK) :
    quoteDepth (List.replicate depth QUOTE_MARK ++ line) = depth := by
  have hstop : line.takeWhile (· = QUOTE_MARK) = [] := by
    cases line with
    | nil => rfl
    | cons unit line => exact List.takeWhile_cons_of_neg (by simpa using h unit rfl)
  rw [quoteDepth, List.takeWhile_append_of_pos, hstop, List.append_nil, List.length_replicate]
  intro unit hunit
  exact decide_eq_true (List.eq_of_mem_replicate hunit)

/-- **One line is read as its content at its depth.** -/
theorem lineOf_raw (h : Raw depth content raw) : lineOf raw delSp = readAs depth content delSp := by
  obtain ⟨line, hstuffed, rfl⟩ := h
  have hread : quoteDepth (List.replicate depth QUOTE_MARK ++ line) = depth ∧
      (List.replicate depth QUOTE_MARK ++ line).drop
        (if (List.replicate depth QUOTE_MARK ++ line)[depth]? = some SPACE then depth + 1
          else depth) = content := by
    have hnext : (List.replicate depth QUOTE_MARK ++ line)[depth]? = line.head? := by
      rw [List.getElem?_append_right (by simp), List.length_replicate, Nat.sub_self,
        List.head?_eq_getElem?]
    have hdrop : ∀ n, (List.replicate depth QUOTE_MARK ++ line).drop (depth + n) =
        line.drop n := by
      intro n
      rw [← List.drop_drop, List.drop_left' (List.length_replicate ..)]
    rw [hnext]
    rcases hstuffed with rfl | ⟨rfl, hfree⟩
    · refine ⟨quoteDepth_append fun unit hunit => ?_, ?_⟩
      · rw [← Option.some.inj hunit]
        decide
      · rw [List.head?_cons, if_pos rfl]
        exact hdrop 1
    · have hhead : ∀ unit ∈ line.head?, unit ≠ QUOTE_MARK ∧ unit ≠ SPACE := by
        intro unit hunit
        obtain ⟨rest, rfl⟩ : ∃ rest, line = unit :: rest := by
          cases line with
          | nil => cases hunit
          | cons first rest => exact ⟨rest, by rw [Option.some.inj hunit]⟩
        refine ⟨fun heq => hfree (.inr (.inl ?_)), fun heq => hfree (.inl ?_)⟩
        · exact ⟨rest, by rw [heq]; rfl⟩
        · exact ⟨rest, by rw [heq]; rfl⟩
      refine ⟨quoteDepth_append fun unit hunit => (hhead unit hunit).1, ?_⟩
      rw [if_neg fun heq : line.head? = some SPACE => (hhead SPACE heq).2 rfl]
      exact hdrop 0
  unfold lineOf readAs
  simp only [hread.1, hread.2]

/-! ## Paragraphs -/

variable {piece : Text} {ended : List (Nat × List Text)} {parts pieces flowed : List Text}
  {paragraphs : List QuotedLine}

theorem readAs_flowed (h : Flows delSp piece content) :
    readAs depth content delSp = ⟨depth, piece, true, false⟩ := by
  obtain ⟨hne, hform⟩ := h
  have hlast : content.getLast? = some SPACE := by
    cases delSp with
    | true =>
      rw [hform.2]
      exact List.getLast?_concat
    | false =>
      rw [hform.2]
      exact hform.1
  have htext : (if delSp then content.dropLast else content) = piece := by
    cases delSp with
    | true =>
      rw [hform.2]
      exact List.dropLast_concat
    | false => exact hform.2
  unfold readAs
  simp only [hne, hlast, decide_false, decide_true, Bool.not_false, Bool.and_self, Bool.true_and,
    htext]

theorem readAs_fixed (h : content.getLast? ≠ some SPACE) :
    readAs depth content delSp = ⟨depth, content, false, false⟩ := by
  have hne : content ≠ SEPARATOR := by
    rintro rfl
    exact h rfl
  unfold readAs
  simp [hne, h]

theorem readAs_separator :
    readAs depth SEPARATOR delSp = ⟨depth, SEPARATOR, false, true⟩ := by
  unfold readAs
  simp

/-- The last paragraph open with the parts read of it. -/
def opened (ended : List (Nat × List Text)) (depth : Nat) (parts : List Text) : Reading :=
  if parts = [] then ⟨ended, none⟩ else ⟨ended, some (depth, parts)⟩

theorem add_flowed : (opened ended depth parts).add ⟨depth, piece, true, false⟩ =
    opened ended depth (parts ++ [piece]) := by
  unfold opened
  by_cases hparts : parts = []
  · simp [hparts, Reading.add]
  · simp [hparts, Reading.add]

theorem add_fixed : (opened ended depth parts).add ⟨depth, piece, false, false⟩ =
    ⟨ended ++ [(depth, parts ++ [piece])], none⟩ := by
  unfold opened
  by_cases hparts : parts = []
  · simp [hparts, Reading.add]
  · simp [hparts, Reading.add]

/-- The flowed lines of a paragraph keep it open. -/
theorem read_flowed (h : List.Forall₂ (Flows delSp) pieces flowed) :
    flowed.foldl (fun (reading : Reading) content => reading.add (readAs depth content delSp))
      (opened ended depth parts) = opened ended depth (parts ++ pieces) := by
  induction h generalizing parts with
  | nil => rw [List.foldl_nil, List.append_nil]
  | cons hflows _ ih =>
    rw [List.foldl_cons, readAs_flowed hflows, add_flowed, ih, List.append_assoc]
    rfl

/-- The lines of a paragraph are read as their contents. -/
theorem read_raws {reading : Reading} (h : List.Forall₂ (Raw depth) contents raws) :
    raws.foldl (fun (reading : Reading) raw => reading.add (lineOf raw delSp)) reading =
      contents.foldl (fun (reading : Reading) content =>
        reading.add (readAs depth content delSp)) reading := by
  induction h generalizing reading with
  | nil => rfl
  | cons hraw _ ih => rw [List.foldl_cons, List.foldl_cons, lineOf_raw hraw, ih]

/-- **The lines of a paragraph are that paragraph.** -/
theorem read_paragraph (hcut : Cut delSp text contents) (hraw : List.Forall₂ (Raw depth) contents raws)
    (hwritable : Writable ⟨depth, text⟩) :
    ∃ parts : List Text, parts.flatten = text ∧
      raws.foldl (fun (reading : Reading) raw => reading.add (lineOf raw delSp)) ⟨ended, none⟩ =
        ⟨ended ++ [(depth, parts)], none⟩ := by
  rw [read_raws hraw]
  have hopened : (⟨ended, none⟩ : Reading) = opened ended depth [] := (if_pos rfl).symm
  unfold Cut at hcut
  split at hcut
  · rename_i hseparator
    refine ⟨[SEPARATOR], by simp [hseparator], ?_⟩
    rw [hcut, List.foldl_cons, readAs_separator]
    rfl
  · rename_i hplain
    obtain ⟨pieces, flowed, last, rfl, rfl, hflows⟩ := hcut
    have hlast : last.getLast? ≠ some SPACE := by
      intro hspace
      have hne : last ≠ [] := by
        rintro rfl
        cases hspace
      refine (hwritable.resolve_left hplain).2.2 ?_
      rw [List.getLast?_append_of_ne_nil _ hne, hspace]
    refine ⟨pieces ++ [last], by simp, ?_⟩
    rw [List.foldl_append, hopened, read_flowed hflows, List.nil_append, List.foldl_cons,
      readAs_fixed hlast, add_fixed, List.foldl_nil]

/-- The lines of some paragraphs are those paragraphs. -/
theorem read_lined (h : Lined delSp paragraphs lines)
    (hwritable : ∀ paragraph ∈ paragraphs, Writable paragraph) :
    ∃ reading : Reading,
      lines.foldl (fun (reading : Reading) raw => reading.add (lineOf raw delSp)) ⟨ended, none⟩ =
        reading ∧
      reading.paragraphs = (⟨ended, none⟩ : Reading).paragraphs ++ paragraphs := by
  induction h generalizing ended with
  | nil => exact ⟨_, rfl, (List.append_nil _).symm⟩
  | @cons paragraph paragraphs contents raws lines hcut hraw _ ih =>
    obtain ⟨parts, hparts, hread⟩ :=
      read_paragraph hcut hraw (hwritable paragraph List.mem_cons_self)
    obtain ⟨reading, hrest, hall⟩ := ih fun p hp => hwritable p (List.mem_cons_of_mem _ hp)
    refine ⟨reading, ?_, ?_⟩
    · rw [List.foldl_append, hread, hrest]
    · rw [hall]
      simp [Reading.paragraphs, hparts]

/-! ## The writing of a text -/

/-- What a writing puts into a line beside the text. -/
theorem mem_of_mem_raw {unit : UInt16} (h : Raw depth content raw) (hunit : unit ∈ raw) :
    unit ∈ content ∨ unit = SPACE ∨ unit = QUOTE_MARK := by
  obtain ⟨line, hstuffed, rfl⟩ := h
  rcases List.mem_append.1 hunit with hunit | hunit
  · exact .inr (.inr (List.eq_of_mem_replicate hunit))
  · rcases hstuffed with rfl | ⟨rfl, -⟩
    · rcases List.mem_cons.1 hunit with hunit | hunit
      · exact .inr (.inl hunit)
      · exact .inl hunit
    · exact .inl hunit

theorem mem_of_mem_flowed {unit : UInt16} (h : List.Forall₂ (Flows delSp) pieces flowed) :
    content ∈ flowed → unit ∈ content → unit ∈ pieces.flatten ∨ unit = SPACE := by
  induction h with
  | nil => exact fun hcontent => (by cases hcontent)
  | @cons piece written pieces flowed hflows _ ih =>
    intro hcontent hunit
    rcases List.mem_cons.1 hcontent with rfl | hcontent
    · have hin : unit ∈ piece ∨ unit = SPACE := by
        obtain ⟨-, hform⟩ := hflows
        cases delSp with
        | true =>
          rw [hform.2] at hunit
          rcases List.mem_append.1 hunit with hunit | hunit
          · exact .inl hunit
          · exact .inr (List.mem_singleton.1 hunit)
        | false => exact .inl (hform.2 ▸ hunit)
      exact hin.imp_left fun hpiece => List.mem_append_left _ hpiece
    · exact (ih hcontent hunit).imp_left fun hpiece => List.mem_append_right _ hpiece

theorem mem_of_mem_cut {unit : UInt16} (h : Cut delSp text contents) (hcontent : content ∈ contents)
    (hunit : unit ∈ content) : unit ∈ text ∨ unit = SPACE := by
  unfold Cut at h
  split at h
  · rename_i hseparator
    rw [h] at hcontent
    rw [hseparator]
    exact .inl (List.mem_singleton.1 hcontent ▸ hunit)
  · obtain ⟨pieces, flowed, last, rfl, rfl, hflows⟩ := h
    rcases List.mem_append.1 hcontent with hcontent | hcontent
    · exact (mem_of_mem_flowed hflows hcontent hunit).imp_left fun h => List.mem_append_left _ h
    · exact .inl (List.mem_append_right _ (List.mem_singleton.1 hcontent ▸ hunit))

theorem exists_of_mem_raws (h : List.Forall₂ (Raw depth) contents raws) (hmem : raw ∈ raws) :
    ∃ content ∈ contents, Raw depth content raw := by
  induction h with
  | nil => cases hmem
  | cons hfirst _ ih =>
    rcases List.mem_cons.1 hmem with rfl | hmem
    · exact ⟨_, List.mem_cons_self, hfirst⟩
    · obtain ⟨content, hcontent, hof⟩ := ih hmem
      exact ⟨content, List.mem_cons_of_mem _ hcontent, hof⟩

/-- No line of a writing holds a line break. -/
theorem unbroken_of_lined (h : Lined delSp paragraphs lines)
    (hwritable : ∀ paragraph ∈ paragraphs, Writable paragraph) :
    ∀ line ∈ lines, LF ∉ line ∧ CR ∉ line := by
  induction h with
  | nil => exact fun line hline => (by cases hline)
  | @cons paragraph paragraphs contents raws lines hcut hraw _ ih =>
    intro line hline
    rcases List.mem_append.1 hline with hline | hline
    swap
    · exact ih (fun p hp => hwritable p (List.mem_cons_of_mem _ hp)) line hline
    have hfree : LF ∉ paragraph.text ∧ CR ∉ paragraph.text := by
      rcases hwritable paragraph List.mem_cons_self with htext | ⟨hlf, hcr, -⟩
      · rw [htext]
        decide
      · exact ⟨hlf, hcr⟩
    obtain ⟨content, hcontent, hof⟩ := exists_of_mem_raws hraw hline
    have hunits : ∀ unit ∈ line, unit ∈ paragraph.text ∨ unit = SPACE ∨ unit = QUOTE_MARK := by
      intro unit hunit
      rcases mem_of_mem_raw hof hunit with hunit | hunit
      · exact (mem_of_mem_cut hcut hcontent hunit).imp_right .inl
      · exact .inr hunit
    refine ⟨fun hlf => ?_, fun hcr => ?_⟩
    · exact (hunits LF hlf).elim hfree.1 (by decide)
    · exact (hunits CR hcr).elim hfree.2 (by decide)

/-- **A flowed text gives back the paragraphs it was written from**, whichever way they were
written. -/
theorem unflow_writes (hwritable : ∀ paragraph ∈ paragraphs, Writable paragraph)
    (h : Writes delSp paragraphs text) : unflow text delSp = paragraphs := by
  obtain ⟨lines, hlined, hended⟩ := h
  obtain ⟨reading, hread, hall⟩ := read_lined hlined hwritable
  rw [unflow, linesOf_ended hended (unbroken_of_lined hlined hwritable), hread, hall]
  rfl

/-- A paragraph quoted once over two lines, the second one stuffed. -/
theorem unflow_writes_quoted :
    unflow (latin "> MORE \r\n> than\n") false = [⟨1, latin "MORE than"⟩] := by
  refine unflow_writes (fun paragraph hp => ?_) ⟨[latin "> MORE ", latin "> than"], ?_, ?_⟩
  · rw [List.mem_singleton.1 hp]
    exact .inr (by decide)
  · have hcut : Cut false (latin "MORE than") [latin "MORE ", latin "than"] := by
      rw [Cut, if_neg (by decide)]
      exact ⟨[latin "MORE "], [latin "MORE "], latin "than", by decide, by decide,
        .cons ⟨by decide, by decide⟩ .nil⟩
    exact .cons hcut (.cons ⟨latin " MORE ", .inl (by decide), by decide⟩
      (.cons ⟨latin " than", .inl (by decide), by decide⟩ .nil)) .nil
  · exact .crlf (.lf .nil)

end Huliho.Flowed
