import Huliho.AuthResults.Layout
import Huliho.AuthResults.Kept

/-!
# Reading a written header

The readers over a header on one line (`Blanks` and `Unquotes`): each takes off what was written and
says it, up to the spaces behind it. A clause is read as its report (**`readClause_written`**), a
first piece as its server (**`readServer_written`**), and a whole header as `Report`s sum up: the
best verdict of each method and the `header.from` of the one dmarc report (**`parse_written`**).
With two there is no reading.
-/

namespace Huliho.AuthResults

/-! ## What a header says -/

/-- How good a verdict is. -/
def AuthVerdict.rank : AuthVerdict → Nat
  | .none => 0
  | .unknown => 1
  | .fail => 2
  | .pass => 3

section
variable (lower : Text → Text)

/-- A result of another version of its method counts as unknown. -/
def Report.verdict (report : Report) : AuthVerdict :=
  if report.version.all fun version => version = VERSION then verdictOf lower report.result
  else .unknown

/-- Whether a report is one of a method. -/
def Report.Of (method : Text) (report : Report) : Prop := lower report.method = method

instance (method : Text) (report : Report) : Decidable (report.Of lower method) :=
  inferInstanceAs (Decidable (_ = _))

/-- The first `header.from` of a report, in lower case and without a dot at its end. -/
def Report.fromDomain (report : Report) : Option Text :=
  (report.properties.find? fun p => lower p.1 = FROM).map fun p => closed (lower p.2)

/-- The best verdict that reports give a method; `none` where none is one of it. -/
structure BestOf (reports : List Report) (method : Text) (verdict : AuthVerdict) : Prop where
  le : ∀ report ∈ reports, report.Of lower method → (report.verdict lower).rank ≤ verdict.rank
  given : verdict = .none ∨
    ∃ report ∈ reports, report.Of lower method ∧ report.verdict lower = verdict

/-- The dmarc reports among some. -/
def dmarcs (reports : List Report) : List Report :=
  reports.filter fun report => report.Of lower (latin "dmarc")

/-- What a header of a server and its reports says. -/
structure SumsUp (server : Text) (reports : List Report) (results : AuthenticationResults) :
    Prop where
  server : results.server = some server
  spf : BestOf lower reports (latin "spf") results.spf
  dkim : BestOf lower reports (latin "dkim") results.dkim
  dmarc : BestOf lower reports (latin "dmarc") results.dmarc
  dmarcFrom : results.dmarcFrom = (dmarcs lower reports).head?.bind (Report.fromDomain lower)

end

variable {lower : Text → Text} {text rest sp word server said : Text} {c : UInt16}

/-! ## Spaces and words -/

theorem blank_space (hc : isBlank c = true) : isSpace c = true := by
  unfold isBlank at hc
  unfold isSpace
  rw [hc]
  rfl

theorem skipSpace_blanks (h : Blanks sp) (text : Text) : skipSpace (sp ++ text) = skipSpace text :=
  List.dropWhile_append_of_pos fun c hc => blank_space (h c hc)

theorem skipSpace_blank (h : Blanks sp) : skipSpace sp = [] := by
  have := skipSpace_blanks h []
  rwa [List.append_nil] at this

theorem skipSpace_self (h : valueEnds text = false) : skipSpace text = text := by
  cases text with
  | nil => rfl
  | cons c text =>
    have hc : isSpace c = false := h
    exact List.dropWhile_cons_of_neg (by rw [hc]; exact Bool.false_ne_true)

/-- Whether a keyword ends before a text. -/
def EndsWord (text : Text) : Prop := text.head?.any isKeywordChar = false

theorem blank_keyword (hc : isBlank c = true) : isKeywordChar c = false := by
  unfold isBlank at hc
  rw [Bool.or_eq_true, decide_eq_true_eq, decide_eq_true_eq] at hc
  rcases hc with rfl | rfl <;> decide

theorem endsWord_blanks (h : Blanks sp) (hc : isKeywordChar c = false) (rest : Text) :
    EndsWord (sp ++ [c] ++ rest) := by
  cases sp with
  | nil => exact hc
  | cons d sp => exact blank_keyword (h d List.mem_cons_self)

/-- What lets a word through and stops at the rest splits the two. -/
theorem split_front {p : UInt16 → Bool} (h : ∀ c ∈ word, p c = true)
    (hrest : rest.head?.any p = false) :
    (word ++ rest).takeWhile p = word ∧ (word ++ rest).dropWhile p = rest := by
  rw [List.takeWhile_append_of_pos h, List.dropWhile_append_of_pos h]
  cases rest with
  | nil => simp
  | cons c rest =>
    have hc : ¬ p c = true := Bool.eq_false_iff.1 hrest
    rw [List.takeWhile_cons_of_neg hc, List.dropWhile_cons_of_neg hc, List.append_nil]
    exact ⟨rfl, rfl⟩

/-- **A word is read up to the text behind it**, with the spaces around it. -/
theorem readWord_word (hsp : Blanks sp) (h : Word word) (hrest : EndsWord rest) :
    readWord (sp ++ word ++ rest) = some (word, skipSpace rest) := by
  have hskip : skipSpace (sp ++ word ++ rest) = word ++ rest := by
    rw [List.append_assoc, skipSpace_blanks hsp, skipSpace_self]
    obtain ⟨c, word, rfl⟩ := List.exists_cons_of_ne_nil h.1
    exact (keyword_bare (h.2 c List.mem_cons_self)).1
  have htake := split_front h.2 hrest
  unfold readWord
  rw [hskip, htake.1, htake.2]
  exact if_neg h.1

theorem readWord_front (h : Word word) (hrest : EndsWord rest) :
    readWord (word ++ rest) = some (word, skipSpace rest) := by
  have hnone : Blanks [] := fun _ h => absurd h List.not_mem_nil
  exact readWord_word hnone h hrest

theorem Word.starts (h : Word word) (rest : Text) : valueEnds (word ++ rest) = false := by
  obtain ⟨c, word, rfl⟩ := List.exists_cons_of_ne_nil h.1
  exact (keyword_bare (h.2 c List.mem_cons_self)).1

/-- A mark behind spaces is what comes next. -/
theorem skipSpace_mark (h : Blanks sp) (hc : isSpace c = false) (rest : Text) :
    skipSpace (sp ++ [c] ++ rest) = c :: rest := by
  rw [List.append_assoc, skipSpace_blanks h]
  exact skipSpace_self hc

/-! ## Properties -/

/-- A value on one line is its parts. -/
theorem WrittenValue.parts (h : WrittenValue Unquotes text said) : Parts text said := by
  induction h with
  | nil => exact .nil
  | unit hc _ ih => exact .unit ⟨hc.2.1.2.1, hc.1⟩ ih
  | @string inner said rest said' hinner _ ih =>
    have hsplit : quoted inner ++ rest = QUOTE :: inner ++ QUOTE :: rest := by simp [quoted]
    rw [hsplit, ← hinner.2]
    exact .quoted hinner.1 ih

theorem readName_written {key : Text} (h : WrittenName Blanks text key) (hsp : Blanks sp)
    (rest : Text) : readName (text ++ sp ++ [EQUALS] ++ rest) = some (key, EQUALS :: rest) := by
  have hends : EndsWord (sp ++ [EQUALS] ++ rest) := endsWord_blanks hsp rfl rest
  cases h with
  | word hname =>
    have hword := readWord_front hname hends
    rw [skipSpace_mark hsp rfl, ← List.append_assoc, ← List.append_assoc] at hword
    rw [readName, hword, Option.bind_some]
    have hmark : EQUALS ≠ DOT := by decide
    exact if_pos fun h => hmark (Option.some.inj h)
  | @dotted ptype gap gap' property hptype hgap hgap' hproperty =>
    have hword := readWord_front hptype
      (endsWord_blanks hgap (c := DOT) rfl (gap' ++ property ++ (sp ++ [EQUALS] ++ rest)))
    have hword' := readWord_word hgap' hproperty hends
    rw [skipSpace_mark hgap rfl] at hword
    rw [skipSpace_mark hsp rfl] at hword'
    have hsplit : ptype ++ gap ++ [DOT] ++ gap' ++ property ++ sp ++ [EQUALS] ++ rest =
        ptype ++ (gap ++ [DOT] ++ (gap' ++ property ++ (sp ++ [EQUALS] ++ rest))) := by simp
    rw [hsplit, readName, hword, Option.bind_some]
    refine (if_neg (not_not.2 rfl)).trans ?_
    dsimp only [List.tail_cons]
    rw [hword']
    rfl

theorem WrittenName.starts {key : Text} (h : WrittenName Blanks text key) (rest : Text) :
    valueEnds (text ++ rest) = false := by
  cases h with
  | word hname => exact hname.starts rest
  | dotted hptype =>
    rw [List.append_assoc, List.append_assoc, List.append_assoc, List.append_assoc]
    exact hptype.starts _

/-- What follows a property: nothing, or a space first. -/
theorem WrittenProperties.ends {properties : List (Text × Text)}
    (h : WrittenProperties Blanks Unquotes text properties) :
    valueEnds text = true ∧ EndsWord text := by
  have hblank : ∀ {sp : Text} (rest : Text), Blanks sp → sp ≠ [] →
      valueEnds (sp ++ rest) = true ∧ EndsWord (sp ++ rest) := by
    intro sp rest hsp hne
    obtain ⟨c, sp, rfl⟩ := List.exists_cons_of_ne_nil hne
    have hc := hsp c List.mem_cons_self
    exact ⟨blank_space hc, blank_keyword hc⟩
  cases h with
  | nil hgap =>
    by_cases hne : text = []
    · rw [hne]
      exact ⟨rfl, rfl⟩
    · have := hblank [] hgap hne
      rwa [List.append_nil] at this
  | cons hgap hne =>
    rw [List.append_assoc]
    exact hblank _ hgap hne

section
variable (lower)

/-- The properties read so far with one more: the first value per name is kept. -/
def keep (properties : List (Text × Text)) (p : Text × Text) : List (Text × Text) :=
  if properties.any fun q => q.1 = lower p.1 then properties else properties ++ [(lower p.1, p.2)]

end

/-- **A turn reads a written property.** -/
theorem propertyTurn_written {p : Text × Text} (lower : Text → Text)
    (properties : List (Text × Text)) (h : WrittenProperty Blanks Unquotes text p)
    (hrest : valueEnds rest = true) :
    propertyTurn lower properties (text ++ rest) =
      some (keep lower properties p, skipSpace rest) := by
  obtain ⟨hname, hgap, hgap', hvalue, hne⟩ := h
  rename_i name key gap gap' value said
  have hread := readName_written hname hgap (gap' ++ value ++ rest)
  have hstart : skipSpace (gap' ++ value ++ rest) = value ++ rest := by
    rw [List.append_assoc, skipSpace_blanks hgap', skipSpace_self (hvalue.parts.starts hne rest)]
  have hsaid : readValue (value ++ rest) = some (said, rest) :=
    readValue_iff.2 ⟨value, hne, rfl, hvalue.parts, hrest⟩
  have hsplit : name ++ gap ++ [EQUALS] ++ gap' ++ value ++ rest =
      name ++ gap ++ [EQUALS] ++ (gap' ++ value ++ rest) := by simp
  rw [hsplit, propertyTurn, hread, Option.bind_some]
  refine (if_neg (not_not.2 rfl)).trans ?_
  dsimp only [List.tail_cons]
  rw [hstart, hsaid]
  rfl

/-- **The properties of a clause are read to its end**, the first of each name. -/
theorem readLoop_written {properties : List (Text × Text)} (lower : Text → Text)
    (h : WrittenProperties Blanks Unquotes text properties) (read : List (Text × Text)) :
    readLoop List.isEmpty (propertyTurn lower) read (skipSpace text) =
      some (properties.foldl (keep lower) read, []) := by
  induction h generalizing read with
  | nil hgap => rw [skipSpace_blank hgap, readLoop_end rfl, List.foldl_nil]
  | @cons gap property rest p properties hgap hne hproperty hrest ih =>
    have hturn := propertyTurn_written lower read hproperty hrest.ends.1
    have hstarts : valueEnds (property ++ rest) = false := by
      obtain ⟨hname, _⟩ := hproperty
      rw [List.append_assoc, List.append_assoc, List.append_assoc, List.append_assoc]
      exact hname.starts _
    have hend : (property ++ rest).isEmpty = false := by
      rw [Bool.eq_false_iff]
      intro hempty
      rw [List.isEmpty_iff.1 hempty] at hstarts
      cases hstarts
    rw [List.append_assoc, skipSpace_blanks hgap, skipSpace_self hstarts,
      readLoop_turn hend hturn (propertyTurn_lt hturn), ih, List.foldl_cons]

/-- What is kept of a name is its first value. -/
theorem valueOf_keep (lower : Text → Text) (properties read : List (Text × Text)) (name : Text) :
    valueOf (properties.foldl (keep lower) read) name =
      (valueOf read name).or
        ((properties.find? fun p => lower p.1 = name).map fun p => p.2) := by
  induction properties generalizing read with
  | nil => rw [List.foldl_nil, List.find?_nil, Option.map_none, Option.or_none]
  | cons p properties ih =>
    rw [List.foldl_cons, ih, keep, List.find?_cons]
    by_cases hany : read.any fun q => q.1 = lower p.1
    · rw [if_pos hany]
      by_cases hname : lower p.1 = name
      · -- The name has its value already.
        obtain ⟨q, hq, hkey⟩ := List.any_eq_true.1 hany
        have hfound : (read.find? fun q => q.1 = name).isSome := by
          rw [List.find?_isSome]
          exact ⟨q, hq, by rw [← hname]; exact hkey⟩
        obtain ⟨value, hvalue⟩ := Option.isSome_iff_exists.1 hfound
        rw [valueOf, hvalue, Option.map_some, Option.some_or, Option.some_or]
      · rw [decide_eq_false hname]
    · rw [if_neg hany, valueOf, valueOf, List.find?_append, List.find?_singleton]
      by_cases hname : lower p.1 = name
      · rw [decide_eq_true hname, if_pos rfl]
        cases read.find? fun q => q.1 = name <;> rfl
      · rw [decide_eq_false hname, if_neg Bool.false_ne_true, Option.or_none]

/-! ## Clauses -/

/-- A method and its version are read up to the equals sign. -/
theorem readMethod_written {method : Text} {version : Option Text} {gap : Text}
    (h : WrittenMethod Blanks text method version) (hgap : Blanks gap) (hsp : Blanks sp)
    (rest : Text) :
    ∃ left, readWord (gap ++ text ++ (sp ++ [EQUALS] ++ rest)) = some (method, left) ∧
      readVersion left = some (version.all fun version => version = VERSION, EQUALS :: rest) := by
  have hends : EndsWord (sp ++ [EQUALS] ++ rest) := endsWord_blanks hsp rfl rest
  cases h with
  | bare hmethod =>
    have hword := readWord_word hgap hmethod hends
    rw [skipSpace_mark hsp rfl] at hword
    refine ⟨_, hword, ?_⟩
    have hmark : EQUALS ≠ SLASH := by decide
    exact if_pos fun h => hmark (Option.some.inj h)
  | @version _ gap' gap'' version hmethod hgap' hgap'' hne hdigits =>
    have hversion : Word version := ⟨hne, fun c hc => by rw [isKeywordChar, hdigits c hc]; rfl⟩
    have hword := readWord_word hgap hmethod
      (endsWord_blanks hgap' (c := SLASH) rfl (gap'' ++ version ++ (sp ++ [EQUALS] ++ rest)))
    have hword' := readWord_word hgap'' hversion hends
    rw [skipSpace_mark hgap' rfl] at hword
    rw [skipSpace_mark hsp rfl] at hword'
    have hsplit : gap ++ (method ++ gap' ++ [SLASH] ++ gap'' ++ version) ++
        (sp ++ [EQUALS] ++ rest) =
          gap ++ method ++ (gap' ++ [SLASH] ++ (gap'' ++ version ++ (sp ++ [EQUALS] ++ rest))) := by
      simp
    refine ⟨_, by rw [hsplit, hword], ?_⟩
    have hall : version.all isDigit = true := List.all_eq_true.2 hdigits
    refine (if_neg (not_not.2 rfl)).trans ?_
    dsimp only [List.tail_cons]
    rw [hword', Option.bind_some]
    dsimp only
    rw [if_pos hall, Option.all_some]

section
variable (lower)

/-- The clause of a report. -/
def Report.clause (report : Report) : Clause :=
  ⟨⟨lower report.method, report.verdict lower⟩, report.fromDomain lower⟩

end

/-- **A written clause is read as its report.** -/
theorem readClause_written {report : Report} (h : WrittenClause Blanks Unquotes text report) :
    readClause lower text = some (report.clause lower) := by
  obtain ⟨hgap, hmethod, hgap', hgap'', hresult, hproperties⟩ := h
  rename_i gap spec gap' gap'' rest
  obtain ⟨left, hword, hversion⟩ := readMethod_written hmethod hgap hgap'
    (gap'' ++ report.result ++ rest)
  have hread := readWord_word hgap'' hresult hproperties.ends.2
  have hspec : readSpec lower (gap ++ spec ++ gap' ++ [EQUALS] ++ gap'' ++ report.result ++ rest) =
      some (⟨lower report.method, report.verdict lower⟩, skipSpace rest) := by
    have hsplit : gap ++ spec ++ gap' ++ [EQUALS] ++ gap'' ++ report.result ++ rest =
        gap ++ spec ++ (gap' ++ [EQUALS] ++ (gap'' ++ report.result ++ rest)) := by simp
    rw [hsplit, readSpec, hword, Option.bind_some]
    dsimp only
    rw [hversion, Option.bind_some]
    refine (if_neg (not_not.2 rfl)).trans ?_
    dsimp only [List.tail_cons]
    rw [hread]
    rfl
  have hloop := readLoop_written lower hproperties []
  have hfrom := valueOf_keep lower report.properties [] FROM
  rw [readClause, hspec, Option.bind_some]
  dsimp only
  rw [readProperties, hloop, Option.map_some, Option.map_some]
  dsimp only
  rw [hfrom]
  simp [Report.clause, Report.fromDomain, valueOf, Option.map_map, Function.comp_def]

theorem bare_char (hc : Bare c) : isBareChar c = true := by
  unfold isBareChar
  rw [hc.1, decide_eq_true hc.2.1.2.1]
  rfl

theorem blank_bare (hc : isBlank c = true) : isBareChar c = false := by
  rw [isBareChar, blank_space hc]
  rfl

theorem blanks_bare (h : Blanks sp) : sp.head?.any isBareChar = false := by
  cases sp with
  | nil => rfl
  | cons c sp => exact blank_bare (h c List.mem_cons_self)

/-- What says a result is no bare `none`. -/
theorem isNoResult_equals (h : EQUALS ∈ text) : isNoResult text = false := by
  have hmem : EQUALS ∈ skipSpace text := mem_dropWhile rfl h
  rw [Bool.eq_false_iff]
  intro hnone
  obtain ⟨hword, hrest⟩ := Bool.and_eq_true_iff.1 hnone
  rw [decide_eq_true_eq] at hword hrest
  rw [← List.takeWhile_append_dropWhile (p := isBareChar) (l := skipSpace text),
    List.mem_append] at hmem
  rcases hmem with hmem | hmem
  · exact absurd (keyword_of_none hword hmem) (by decide)
  · exact skipSpace_ne rfl hmem hrest

theorem isNoResult_written (h : WrittenNone Blanks text) : isNoResult text = true := by
  obtain ⟨hgap, hword, hgap'⟩ := h
  rename_i gap word gap'
  have hbare : ∀ c ∈ word, isBareChar c = true := fun c hc =>
    bare_char (keyword_bare (keyword_of_none hword hc))
  have hstart : skipSpace (gap ++ word ++ gap') = word ++ gap' := by
    have hne : word ≠ [] := by
      rintro rfl
      cases hword
    have hkeyword : Word word := ⟨hne, fun c hc => keyword_of_none hword hc⟩
    rw [List.append_assoc, skipSpace_blanks hgap, skipSpace_self (hkeyword.starts gap')]
  have htake := split_front hbare (blanks_bare hgap')
  unfold isNoResult
  dsimp only
  rw [hstart, htake.1, htake.2, hword, skipSpace_blank hgap']
  rfl

/-- **The clauses of a body are read as its reports.** -/
theorem readClauses_written {texts : List Text} {reports : List Report}
    (h : WrittenBody Blanks Unquotes texts reports)
    (hcount : reports.length ≤ AUTH_RESULTS_MAX_CLAUSES) :
    readClauses lower texts = some (reports.map (Report.clause lower)) := by
  cases h with
  | none h =>
    have hone : ¬ ((1 : Nat) = 0 ∨ (1 : Nat) > AUTH_RESULTS_MAX_CLAUSES) := by decide
    rw [readClauses, List.length_singleton, if_neg hone,
      List.filter_cons_of_neg (by rw [isNoResult_written h]; decide)]
    rfl
  | clauses hne h =>
    have hread : (texts.filter fun clause => !isNoResult clause).mapM (readClause lower) =
        some (reports.map (Report.clause lower)) := by
      clear hne hcount
      induction h with
      | nil => rfl
      | cons h _ ih =>
        rw [List.filter_cons_of_pos (by rw [isNoResult_equals h.equals_mem]; rfl), List.mapM_cons,
          readClause_written h, ih]
        rfl
    have hlength : ¬ (texts.length = 0 ∨ texts.length > AUTH_RESULTS_MAX_CLAUSES) := by
      have := List.length_pos_iff.2 hne
      rw [h.length_eq] at *
      omega
    rw [readClauses, if_neg hlength, hread]

/-! ## The server -/

/-- Whether a server keeps the bounds on it. -/
def ServerBounded (server : Text) : Prop :=
  byteLength server ≤ SERVER_MAX_BYTES ∧ ∀ c ∈ server, isControl c = false

/-- What a server is written as is read as it, before a rest that the version fits. -/
theorem readServer_front {gap : Text} (hgap : Blanks gap)
    (h : WrittenServer Unquotes server said) (hrest : rest.head?.any isBareChar = false)
    (hfits : fitsVersion rest = true) (hbound : ServerBounded said) :
    readServer (gap ++ server ++ rest) = some said := by
  have hkeeps : ¬ (byteLength said > SERVER_MAX_BYTES ∨ said.any isControl = true) := by
    rintro (hlong | hcontrol)
    · exact absurd hbound.1 (by omega)
    · obtain ⟨c, hc, hcontrol⟩ := List.any_eq_true.1 hcontrol
      rw [hbound.2 c hc] at hcontrol
      cases hcontrol
  have hlength : server ≠ [] →
      ¬ (rest.length = (server ++ rest).length ∨ ¬ fitsVersion rest = true) := by
    intro hne
    have := List.length_pos_iff.2 hne
    rw [not_or, not_not, List.length_append]
    exact ⟨by omega, hfits⟩
  unfold readServer
  rw [List.append_assoc, skipSpace_blanks hgap]
  cases h with
  | bare hne hbare =>
    have hstart : skipSpace (server ++ rest) = server ++ rest ∧
        (server ++ rest).head? ≠ some QUOTE := by
      obtain ⟨c, server, rfl⟩ := List.exists_cons_of_ne_nil hne
      obtain ⟨hspace, hplain, -⟩ := (hbare c List.mem_cons_self).1
      exact ⟨skipSpace_self hspace, fun h => hplain.2.1 (Option.some.inj h)⟩
    have htake := split_front (fun c hc => bare_char (hbare c hc).1) hrest
    rw [hstart.1]
    dsimp only
    rw [if_neg hstart.2, htake.1, htake.2, Option.bind_some]
    dsimp only
    rw [if_neg (hlength hne), if_neg hkeeps]
  | @string inner said hinner =>
    have hsplit : quoted inner ++ rest = QUOTE :: inner ++ QUOTE :: rest := by simp [quoted]
    have hread := readQuoted_quoted hinner.1 rest
    rw [← hsplit, hinner.2] at hread
    have hstart : skipSpace (quoted inner ++ rest) = quoted inner ++ rest := skipSpace_self rfl
    have hquote : (quoted inner ++ rest).head? = some QUOTE := rfl
    rw [hstart]
    dsimp only
    rw [if_pos hquote, hread, Option.bind_some]
    dsimp only
    rw [if_neg (hlength (List.cons_ne_nil _ _)), if_neg hkeeps]

/-- **A written first piece is read as its server.** -/
theorem readServer_written (h : WrittenHead Blanks Unquotes text said)
    (hbound : ServerBounded said) : readServer text = some said := by
  cases h with
  | server hgap hserver hgap' =>
    have hfits : ∀ {sp : Text}, Blanks sp → fitsVersion sp = true := by
      intro sp hsp
      unfold fitsVersion
      rw [skipSpace_blank hsp]
      rfl
    exact readServer_front hgap hserver (blanks_bare hgap') (hfits hgap') hbound
  | @version gap server _ gap' gap'' hgap hserver hgap' hne hgap'' =>
    have hword : Word VERSION := ⟨List.cons_ne_nil _ _, List.all_eq_true.1 (by decide)⟩
    have hends : EndsWord gap'' := by
      cases gap'' with
      | nil => rfl
      | cons c gap'' => exact blank_keyword (hgap'' c List.mem_cons_self)
    have hread := readWord_word hgap' hword hends
    rw [skipSpace_blank hgap''] at hread
    obtain ⟨c, gap', rfl⟩ := List.exists_cons_of_ne_nil hne
    have hc := blank_space (hgap' c List.mem_cons_self)
    have hsplit : gap ++ server ++ (c :: gap') ++ VERSION ++ gap'' =
        gap ++ server ++ (c :: gap' ++ VERSION ++ gap'') := by simp
    rw [hsplit]
    refine readServer_front hgap hserver ?_ ?_ hbound
    · exact blank_bare (hgap' c List.mem_cons_self)
    · unfold fitsVersion
      rw [hread, decide_eq_true rfl, Bool.and_true]
      have hspace : ((c :: gap' ++ VERSION ++ gap'').head?.any isSpace) = true := hc
      rw [hspace, Bool.or_true]

/-- A server is quoted or has no equals sign. -/
theorem server_front {gap : Text} (hgap : Blanks gap) (h : WrittenServer Unquotes server said)
    (hrest : EQUALS ∉ rest) :
    (skipSpace (gap ++ server ++ rest)).head? = some QUOTE ∨ EQUALS ∉ gap ++ server ++ rest := by
  cases h with
  | bare hne hbare =>
    right
    rw [List.mem_append, List.mem_append]
    rintro ((hmem | hmem) | hmem)
    · exact absurd (hgap _ hmem) (by decide)
    · exact (hbare _ hmem).2 rfl
    · exact hrest hmem
  | string hinner =>
    left
    rw [List.append_assoc, skipSpace_blanks hgap]
    rfl

theorem WrittenHead.front (h : WrittenHead Blanks Unquotes text said) :
    (skipSpace text).head? = some QUOTE ∨ EQUALS ∉ text := by
  have hblanks : ∀ {sp : Text}, Blanks sp → EQUALS ∉ sp := fun hsp hmem =>
    absurd (hsp _ hmem) (by decide)
  cases h with
  | server hgap hserver hgap' => exact server_front hgap hserver (hblanks hgap')
  | @version gap server _ gap' gap'' hgap hserver hgap' _ hgap'' =>
    have hrest : EQUALS ∉ gap' ++ VERSION ++ gap'' := by
      rw [List.mem_append, List.mem_append]
      rintro ((hmem | hmem) | hmem)
      · exact hblanks hgap' hmem
      · exact absurd hmem (by decide)
      · exact hblanks hgap'' hmem
    have := server_front hgap hserver hrest
    simpa only [List.append_assoc] using this

/-- **A written first piece is read as a server**, and what follows it as clauses. -/
theorem readHead_written {texts : List Text} (h : WrittenHead Blanks Unquotes text said)
    (hbound : ServerBounded said) : readHead (text :: texts) = some ⟨some said, texts⟩ := by
  have hserver : ¬ ((skipSpace text).head? ≠ some QUOTE ∧ EQUALS ∈ text) := by
    rintro ⟨hquote, hequals⟩
    rcases h.front with hfront | hfront
    · exact hquote hfront
    · exact hfront hequals
  unfold readHead
  dsimp only [List.headD_cons, List.tail_cons]
  rw [if_neg hserver, readServer_written h hbound, Option.map_some]

/-! ## Headers -/

/-- The first that occurs in the order is the best. -/
theorem find_best {verdicts : List AuthVerdict} {best : AuthVerdict}
    (h : (BEST_FIRST.find? fun verdict => verdict ∈ verdicts).getD .none = best) :
    (best = .none ∨ best ∈ verdicts) ∧ ∀ verdict ∈ verdicts, verdict.rank ≤ best.rank := by
  unfold BEST_FIRST at h
  simp only [List.find?_cons, List.find?_nil] at h
  by_cases hpass : AuthVerdict.pass ∈ verdicts
  · rw [decide_eq_true hpass] at h
    obtain rfl : best = .pass := h.symm
    refine ⟨.inr hpass, fun verdict _ => ?_⟩
    cases verdict <;> decide
  rw [decide_eq_false hpass] at h
  by_cases hfail : AuthVerdict.fail ∈ verdicts
  · rw [decide_eq_true hfail] at h
    obtain rfl : best = .fail := h.symm
    refine ⟨.inr hfail, fun verdict hmem => ?_⟩
    cases verdict with
    | pass => exact absurd hmem hpass
    | _ => decide
  rw [decide_eq_false hfail] at h
  by_cases hunknown : AuthVerdict.unknown ∈ verdicts
  · rw [decide_eq_true hunknown] at h
    obtain rfl : best = .unknown := h.symm
    refine ⟨.inr hunknown, fun verdict hmem => ?_⟩
    cases verdict with
    | pass => exact absurd hmem hpass
    | fail => exact absurd hmem hfail
    | _ => decide
  rw [decide_eq_false hunknown] at h
  have hnone : best = .none := by
    rw [← h]
    by_cases hnone : AuthVerdict.none ∈ verdicts
    · rw [decide_eq_true hnone]
      rfl
    · rw [decide_eq_false hnone]
      rfl
  subst hnone
  refine ⟨.inl rfl, fun verdict hmem => ?_⟩
  cases verdict with
  | pass => exact absurd hmem hpass
  | fail => exact absurd hmem hfail
  | unknown => exact absurd hmem hunknown
  | none => decide

/-- The reports of a method give its clauses their verdicts. -/
theorem verdictsOf_clauses (reports : List Report) (method : Text) :
    verdictsOf (reports.map (Report.clause lower)) method =
      (reports.filter fun report => report.Of lower method).map (Report.verdict lower) := by
  unfold verdictsOf
  rw [List.filter_map, List.map_map]
  rfl

theorem best_clauses (reports : List Report) (method : Text) :
    BestOf lower reports method (best (reports.map (Report.clause lower)) method) := by
  have hbest : best (reports.map (Report.clause lower)) method = _ := rfl
  obtain ⟨hgiven, hle⟩ := find_best hbest.symm
  rw [verdictsOf_clauses] at hgiven hle
  constructor
  · intro report hreport hof
    exact hle _ (List.mem_map_of_mem (List.mem_filter.2 ⟨hreport, decide_eq_true hof⟩))
  · refine hgiven.imp_right fun hmem => ?_
    obtain ⟨report, hreport, hverdict⟩ := List.mem_map.1 hmem
    obtain ⟨hreport, hof⟩ := List.mem_filter.1 hreport
    exact ⟨report, hreport, of_decide_eq_true hof, hverdict⟩

theorem mem_dmarcs {reports : List Report} {report : Report} :
    report ∈ dmarcs lower reports ↔ report ∈ reports ∧ report.Of lower (latin "dmarc") := by
  rw [dmarcs, List.mem_filter, decide_eq_true_eq]

/-- The verdict of the one dmarc report is the best. -/
theorem dmarc_best {reports : List Report} (hcount : (dmarcs lower reports).length < 2) :
    BestOf lower reports (latin "dmarc")
      (((dmarcs lower reports).head?.map (Report.verdict lower)).getD .none) := by
  cases hdmarcs : dmarcs lower reports with
  | nil =>
    refine ⟨fun report hreport hof => ?_, .inl rfl⟩
    have hmem := mem_dmarcs.2 ⟨hreport, hof⟩
    rw [hdmarcs] at hmem
    exact absurd hmem List.not_mem_nil
  | cons dmarc rest =>
    rw [hdmarcs, List.length_cons] at hcount
    obtain rfl : rest = [] := List.length_eq_zero_iff.1 (by omega)
    have hmem : ∀ report, report ∈ reports ∧ report.Of lower (latin "dmarc") ↔ report = dmarc := by
      intro report
      rw [← mem_dmarcs, hdmarcs, List.mem_singleton]
    obtain ⟨hreport, hof⟩ := (hmem dmarc).2 rfl
    refine ⟨fun report hreport hof => ?_, .inr ⟨dmarc, hreport, hof, rfl⟩⟩
    rw [(hmem report).1 ⟨hreport, hof⟩]
    exact Nat.le_refl _

/-- **Reports sum up to what they say**, with at most one of dmarc. -/
theorem summarize_written (reports : List Report) (server : Text) :
    ((dmarcs lower reports).length < 2 →
      ∃ results, summarize (some server) (reports.map (Report.clause lower)) = some results ∧
        SumsUp lower server reports results) ∧
      (2 ≤ (dmarcs lower reports).length →
        summarize (some server) (reports.map (Report.clause lower)) = none) := by
  have hdmarcs : ((reports.map (Report.clause lower)).filter fun clause =>
      clause.method = latin "dmarc") = (dmarcs lower reports).map (Report.clause lower) := by
    rw [List.filter_map]
    rfl
  unfold summarize
  dsimp only
  rw [hdmarcs, List.length_map]
  constructor
  · intro hcount
    refine ⟨_, if_neg (by omega), ?_⟩
    refine ⟨rfl, best_clauses reports _, best_clauses reports _, ?_, ?_⟩
    · have hverdict := dmarc_best hcount
      rw [List.head?_map, Option.map_map]
      exact hverdict
    · cases dmarcs lower reports <;> rfl
  · exact fun hcount => if_pos hcount

/-- **A written header is read as what it says**; one with two dmarc reports is not read. -/
theorem parse_written {header : Text} {reports : List Report} (h : Written header server reports)
    (hbound : Bounded header) (hserver : ServerBounded server)
    (hcount : reports.length ≤ AUTH_RESULTS_MAX_CLAUSES) :
    ((dmarcs lower reports).length < 2 →
      ∃ results, parseAuthenticationResults lower header = some results ∧
        SumsUp lower server reports results) ∧
      (2 ≤ (dmarcs lower reports).length → parseAuthenticationResults lower header = none) := by
  obtain ⟨head, texts, hsplit, hhead, hbody⟩ := h.split
  have hparse : parseAuthenticationResults lower header =
      summarize (some server) (reports.map (Report.clause lower)) := by
    rw [parseAuthenticationResults, if_neg (not_not.2 hbound), hsplit, Option.bind_some,
      readHead_written hhead hserver, Option.bind_some]
    dsimp only
    rw [readClauses_written hbody hcount, Option.bind_some]
  rw [hparse]
  exact summarize_written reports server

/-- **What a server writes is read as it means it**: its name, the best verdict per method and the
`header.from` of its one dmarc report; with two it is not read. Nothing inside comments changes
that, and nothing inside quoted strings but the server's and that `header.from`. -/
theorem parse_reads (lower : Text → Text) :
    (∀ {header server : Text} {reports : List Report}, Written header server reports →
      Bounded header → ServerBounded server → reports.length ≤ AUTH_RESULTS_MAX_CLAUSES →
      ((dmarcs lower reports).length < 2 →
        ∃ results, parseAuthenticationResults lower header = some results ∧
          SumsUp lower server reports results) ∧
        (2 ≤ (dmarcs lower reports).length → parseAuthenticationResults lower header = none)) ∧
      (∀ {header header' : Text}, Alike Eq header header' → Bounded header → Bounded header' →
        parseAuthenticationResults lower header = parseAuthenticationResults lower header') ∧
      ∀ {header header' : Text}, Alike (fun _ _ => True) header header' →
        keptParts lower header = keptParts lower header' → Bounded header → Bounded header' →
        parseAuthenticationResults lower header = parseAuthenticationResults lower header' :=
  ⟨fun h hbound hserver hcount => parse_written h hbound hserver hcount,
    fun h hbound hbound' => parse_commented h hbound hbound',
    fun h hkept hbound hbound' => parse_alike h hkept hbound hbound'⟩

/-- A pass is read, whatever its comment is, and not from a value that is quoted. -/
theorem parse_reads_pass :
    (∃ results, parseAuthenticationResults id (latin "a;spf=pass") = some results ∧
      SumsUp id (latin "a") [⟨latin "spf", none, latin "pass", []⟩] results) ∧
      parseAuthenticationResults id (latin "a;spf=pass" ++ comment []) =
        parseAuthenticationResults id (latin "a;spf=pass" ++ comment (latin ";")) ∧
      parseAuthenticationResults id (latin "a;spf=none b=" ++ quoted []) =
        parseAuthenticationResults id (latin "a;spf=none b=" ++ quoted (latin "c;spf=pass")) := by
  obtain ⟨hreads, hcomments, hquotes⟩ := parse_reads id
  refine ⟨?_, ?_, ?_⟩
  · have hserver : WrittenServer Content (latin "a") (latin "a") := by
      refine .bare (List.cons_ne_nil _ _) ?_
      intro c hc
      obtain rfl : c = 97 := List.mem_singleton.1 hc
      decide
    have hhead : WrittenHead Gap Content ([] ++ latin "a" ++ []) (latin "a") :=
      .server .nil hserver .nil
    have hword : ∀ {word : Text}, word ≠ [] → word.all isKeywordChar = true → Word word :=
      fun hne hall => ⟨hne, List.all_eq_true.1 hall⟩
    have hmethod : WrittenMethod Gap (latin "spf") (latin "spf") none :=
      .bare (hword (by decide) (by decide))
    have hclause := @WrittenClause.mk Gap Content [] (latin "spf") [] [] []
      ⟨latin "spf", none, latin "pass", []⟩ .nil hmethod .nil .nil (hword (by decide) (by decide))
      (.nil .nil)
    have hheader := Written.mk hhead (.clauses (List.cons_ne_nil _ _) (.cons hclause .nil))
    have hbound : ServerBounded (latin "a") := by
      refine ⟨by decide, fun c hc => ?_⟩
      obtain rfl : c = 97 := List.mem_singleton.1 hc
      decide
    exact (hreads hheader (by decide) hbound (by decide)).1 (by decide)
  · have hinside : Inside (latin ";") := .unit (by decide) .nil
    have hend : Alike Eq (comment []) (comment (latin ";")) := .comment .nil hinside (.same [])
    exact hcomments (hend.front (by decide)) (by decide) (by decide)
  · have hinside : Quoted (latin "c;spf=pass") := by
      repeat' refine .unit (by decide) ?_
      exact .nil
    have hend : Alike (fun _ _ => True) (quoted []) (quoted (latin "c;spf=pass")) :=
      .quoted .nil hinside trivial (.same [])
    have hkept : keptParts id (latin "a;spf=none b=" ++ quoted []) =
        keptParts id (latin "a;spf=none b=" ++ quoted (latin "c;spf=pass")) := by decide +kernel
    exact hquotes (hend.front (by decide)) hkept (by decide) (by decide)

end Huliho.AuthResults
