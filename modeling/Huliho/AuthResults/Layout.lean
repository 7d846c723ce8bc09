import Huliho.AuthResults.Grammar

/-!
# The layout of a written header

`Scans raw text` says that a piece of a header goes into its clause as a text, whatever stands
before it and behind it. Folding white space and comments go in as spaces and tabs
(**`Gap.scans`**), a quoted string with its lines unfolded (**`Content.scans`**), and everything
else as it stands; so a clause as a server writes it goes in as the same clause on one line
(**`WrittenClause.scans`**), and a header is cut into its clauses (**`Written.split`**).
-/

namespace Huliho.AuthResults

/-- A piece of a header goes into the clause that is read as a text. -/
def Scans (raw text : Text) : Prop :=
  ∀ (cut : Cut) (rest : Text), cut.scan (unfold (raw ++ rest)) = (cut.add text).scan (unfold rest)

variable {raw raw' text text' rest inner said : Text} {c : UInt16}

/-! ## Pieces -/

theorem Scans.nil : Scans [] [] := by
  intro cut rest
  rw [List.nil_append, Cut.add, List.append_nil]

theorem Scans.append (h : Scans raw text) (h' : Scans raw' text') :
    Scans (raw ++ raw') (text ++ text') := by
  intro cut rest
  rw [List.append_assoc, h, h', Cut.add, Cut.add, Cut.add, List.append_assoc]

theorem unfold_kept (hc : c ≠ CR ∧ c ≠ LF) (rest : Text) :
    unfold (c :: rest) = c :: unfold rest := by
  rw [unfold_step, if_neg]
  simp [startsFold, hc.1, hc.2]

/-- A blank is no line break and starts no piece of its own. -/
theorem blank_kept (hc : isBlank c = true) :
    (c ≠ CR ∧ c ≠ LF) ∧ Plain c ∧ c ≠ SEMICOLON ∧ c ≠ BACKSLASH := by
  unfold isBlank at hc
  simp only [Bool.or_eq_true, decide_eq_true_eq] at hc
  rcases hc with rfl | rfl <;> decide

theorem unfold_fold (hc : isBlank c = true) (rest : Text) :
    unfold (LF :: c :: rest) = c :: unfold rest := by
  rw [unfold_step, if_pos (by simp [startsFold, hc]), unfold_kept (blank_kept hc).1]

theorem unfold_crlf (hc : isBlank c = true) (rest : Text) :
    unfold (CR :: LF :: c :: rest) = c :: unfold rest := by
  rw [unfold_step, if_pos (by simp [startsFold, hc]), unfold_fold hc]

/-- What unfolds to a unit that starts no piece goes in as that unit. -/
theorem Scans.of_unfold (hplain : Plain c) (hsemi : c ≠ SEMICOLON)
    (h : ∀ rest, unfold (raw ++ rest) = c :: unfold rest) : Scans raw [c] := by
  intro cut rest
  rw [h, Cut.scan_turn (Cut.turn_unit hplain hsemi _)]

theorem Scans.unit (hc : Bare c) : Scans [c] [c] :=
  .of_unfold hc.2.1 hc.2.2 fun rest => unfold_cons hc.1 rest

theorem Scans.units (h : ∀ c ∈ text, Bare c) : Scans text text := by
  induction text with
  | nil => exact .nil
  | cons c text ih =>
    have hrest := ih fun d hd => h d (List.mem_cons_of_mem _ hd)
    exact (Scans.unit (h c List.mem_cons_self)).append hrest

theorem Scans.comment (h : Inside inner) : Scans (AuthResults.comment inner) [SPACE] := by
  intro cut rest
  have hsplit : AuthResults.comment inner ++ rest = OPEN :: (inner ++ CLOSE :: rest) := by
    simp [AuthResults.comment]
  rw [hsplit, unfold_cons (by decide), unfold_append (by decide), ← List.cons_append,
    Cut.scan_turn (Cut.turn_comment h.unfold _)]

/-- What a quoted string holds is, unfolded, one that says the same. -/
theorem Content.unquotes (h : Content inner said) : Unquotes (unfold inner) said := by
  have hunescape : ∀ {c : UInt16} (text : Text), c ≠ BACKSLASH →
      unescape (c :: text) = c :: unescape text := by
    intro c text hc
    cases text with
    | nil => rfl
    | cons d text => rw [unescape, if_neg hc]
  induction h with
  | nil => exact ⟨.nil, rfl⟩
  | unit hc _ ih =>
    rw [unfold_kept ⟨hc.2.2.1, hc.2.2.2⟩]
    exact ⟨.unit ⟨hc.1, hc.2.1⟩ ih.1, by rw [hunescape _ hc.2.1, ih.2]⟩
  | pair hc _ ih =>
    rw [unfold_cons (by decide), unfold_kept hc]
    exact ⟨.pair ih.1, by rw [unescape, if_pos rfl, ih.2]⟩
  | fold hc _ ih =>
    have hkept := blank_kept hc
    rw [unfold_fold hc]
    exact ⟨.unit ⟨hkept.2.1.2.1, hkept.2.2.2⟩ ih.1, by rw [hunescape _ hkept.2.2.2, ih.2]⟩
  | crlf hc _ ih =>
    have hkept := blank_kept hc
    rw [unfold_crlf hc]
    exact ⟨.unit ⟨hkept.2.1.2.1, hkept.2.2.2⟩ ih.1, by rw [hunescape _ hkept.2.2.2, ih.2]⟩

/-- **A quoted string goes in with its lines unfolded.** -/
theorem Content.scans (h : Content inner said) : Scans (quoted inner) (quoted (unfold inner)) := by
  intro cut rest
  have hsplit : quoted inner ++ rest = QUOTE :: (inner ++ QUOTE :: rest) := by simp [quoted]
  rw [hsplit, unfold_cons (by decide), unfold_append (by decide), ← List.cons_append,
    Cut.scan_turn (Cut.turn_quoted h.unquotes.1 _)]

/-- **Folding white space and comments go in as spaces and tabs**, and leave some where they are. -/
theorem Gap.scans (h : Gap raw) :
    ∃ text, Scans raw text ∧ Blanks text ∧ (raw ≠ [] → text ≠ []) := by
  have hone : ∀ {raw rest : Text} {c : UInt16}, isBlank c = true → Scans raw [c] →
      (∃ text, Scans rest text ∧ Blanks text ∧ (rest ≠ [] → text ≠ [])) →
      ∃ text, Scans (raw ++ rest) text ∧ Blanks text ∧ (raw ++ rest ≠ [] → text ≠ []) := by
    rintro raw rest c hc hraw ⟨text, hrest, htext, -⟩
    refine ⟨[c] ++ text, hraw.append hrest, ?_, fun _ => List.cons_ne_nil _ _⟩
    intro d hd
    rcases List.mem_cons.1 hd with rfl | hd
    · exact hc
    · exact htext d hd
  induction h with
  | nil => exact ⟨[], .nil, fun _ h => absurd h List.not_mem_nil, fun h => h⟩
  | @blank c rest hc _ ih =>
    obtain ⟨hkept, hplain, hsemi, -⟩ := blank_kept hc
    have hscans : Scans [c] [c] := .of_unfold hplain hsemi fun rest => unfold_kept hkept rest
    exact hone hc hscans ih
  | @fold c rest hc _ ih =>
    obtain ⟨-, hplain, hsemi, -⟩ := blank_kept hc
    have hscans : Scans [LF, c] [c] := .of_unfold hplain hsemi fun rest => unfold_fold hc rest
    exact hone hc hscans ih
  | @crlf c rest hc _ ih =>
    obtain ⟨-, hplain, hsemi, -⟩ := blank_kept hc
    have hscans : Scans [CR, LF, c] [c] := .of_unfold hplain hsemi fun rest => unfold_crlf hc rest
    exact hone hc hscans ih
  | @comment inner rest hinner _ ih =>
    have := hone (by decide) (Scans.comment hinner) ih
    simpa [AuthResults.comment] using this

/-! ## Clauses -/

theorem keyword_ne {d : UInt16} (hd : isKeywordChar d = false) (hc : isKeywordChar c = true) :
    c ≠ d := by
  rintro rfl
  rw [hd] at hc
  cases hc

theorem keyword_bare (hc : isKeywordChar c = true) : Bare c := by
  refine ⟨?_, ⟨?_, ?_, ?_⟩, ?_⟩
  · unfold isSpace
    rw [decide_eq_false (keyword_ne rfl hc), decide_eq_false (keyword_ne rfl hc),
      decide_eq_false (keyword_ne rfl hc), decide_eq_false (keyword_ne rfl hc)]
    rfl
  · exact keyword_ne rfl hc
  · exact keyword_ne rfl hc
  · exact keyword_ne rfl hc
  · exact keyword_ne rfl hc

theorem Word.scans (h : Word text) : Scans text text :=
  .units fun c hc => keyword_bare (h.2 c hc)

theorem WrittenValue.scans (h : WrittenValue Content raw said) :
    ∃ text, Scans raw text ∧ WrittenValue Unquotes text said ∧ (raw ≠ [] → text ≠ []) := by
  induction h with
  | nil => exact ⟨[], .nil, .nil, fun h => h⟩
  | unit hc _ ih =>
    obtain ⟨text, hscans, htext, -⟩ := ih
    exact ⟨_, (Scans.unit hc).append hscans, .unit hc htext, fun _ => List.cons_ne_nil _ _⟩
  | string hinner _ ih =>
    obtain ⟨text, hscans, htext, -⟩ := ih
    exact ⟨_, hinner.scans.append hscans, .string hinner.unquotes htext,
      fun _ => List.cons_ne_nil _ _⟩

theorem WrittenName.scans {key : Text} (h : WrittenName Gap raw key) :
    ∃ text, Scans raw text ∧ WrittenName Blanks text key := by
  cases h with
  | word hname => exact ⟨raw, hname.scans, .word hname⟩
  | dotted hptype hgap hgap' hproperty =>
    obtain ⟨sp, hsp, hblanks, -⟩ := hgap.scans
    obtain ⟨sp', hsp', hblanks', -⟩ := hgap'.scans
    have hdot : Scans [DOT] [DOT] := .unit (by decide)
    exact ⟨_, (((hptype.scans.append hsp).append hdot).append hsp').append hproperty.scans,
      .dotted hptype hblanks hblanks' hproperty⟩

theorem WrittenProperty.scans {p : Text × Text} (h : WrittenProperty Gap Content raw p) :
    ∃ text, Scans raw text ∧ WrittenProperty Blanks Unquotes text p := by
  obtain ⟨hname, hgap, hgap', hvalue, hne⟩ := h
  obtain ⟨name, hname, hnamed⟩ := hname.scans
  obtain ⟨sp, hsp, hblanks, -⟩ := hgap.scans
  obtain ⟨sp', hsp', hblanks', -⟩ := hgap'.scans
  obtain ⟨value, hvalue, hsaid, hsome⟩ := hvalue.scans
  have hequals : Scans [EQUALS] [EQUALS] := .unit (by decide)
  exact ⟨_, (((hname.append hsp).append hequals).append hsp').append hvalue,
    .mk hnamed hblanks hblanks' hsaid (hsome hne)⟩

theorem WrittenProperties.scans {properties : List (Text × Text)}
    (h : WrittenProperties Gap Content raw properties) :
    ∃ text, Scans raw text ∧ WrittenProperties Blanks Unquotes text properties := by
  induction h with
  | nil hgap =>
    obtain ⟨sp, hsp, hblanks, -⟩ := hgap.scans
    exact ⟨sp, hsp, .nil hblanks⟩
  | cons hgap hne hproperty _ ih =>
    obtain ⟨sp, hsp, hblanks, hsome⟩ := hgap.scans
    obtain ⟨property, hscans, hp⟩ := hproperty.scans
    obtain ⟨rest, hrest, htext⟩ := ih
    exact ⟨_, (hsp.append hscans).append hrest, .cons hblanks (hsome hne) hp htext⟩

theorem WrittenMethod.scans {method : Text} {version : Option Text}
    (h : WrittenMethod Gap raw method version) :
    ∃ text, Scans raw text ∧ WrittenMethod Blanks text method version := by
  cases h with
  | bare hmethod => exact ⟨_, hmethod.scans, .bare hmethod⟩
  | @version _ gap gap' version hmethod hgap hgap' hversion hdigits =>
    obtain ⟨sp, hsp, hblanks, -⟩ := hgap.scans
    obtain ⟨sp', hsp', hblanks', -⟩ := hgap'.scans
    have hslash : Scans [SLASH] [SLASH] := .unit (by decide)
    have hscans : Scans version version := .units fun c hc =>
      keyword_bare (by rw [isKeywordChar, hdigits c hc]; rfl)
    exact ⟨_, (((hmethod.scans.append hsp).append hslash).append hsp').append hscans,
      .version hmethod hblanks hblanks' hversion hdigits⟩

/-- **A clause goes in as the same clause on one line.** -/
theorem WrittenClause.scans {report : Report} (h : WrittenClause Gap Content raw report) :
    ∃ text, Scans raw text ∧ WrittenClause Blanks Unquotes text report := by
  obtain ⟨hgap, hmethod, hgap', hgap'', hresult, hproperties⟩ := h
  obtain ⟨sp, hsp, hblanks, -⟩ := hgap.scans
  obtain ⟨spec, hspec, hwritten⟩ := hmethod.scans
  obtain ⟨sp', hsp', hblanks', -⟩ := hgap'.scans
  obtain ⟨sp'', hsp'', hblanks'', -⟩ := hgap''.scans
  obtain ⟨rest, hrest, hlisted⟩ := hproperties.scans
  have hequals : Scans [EQUALS] [EQUALS] := .unit (by decide)
  exact ⟨_, (((((hsp.append hspec).append hsp').append hequals).append hsp'').append
    hresult.scans).append hrest, .mk hblanks hwritten hblanks' hblanks'' hresult hlisted⟩

/-- A letter of `none` in any case is a keyword's. -/
theorem keyword_of_none {word : Text} (h : word.map asciiLower = latin "none") (hc : c ∈ word) :
    isKeywordChar c = true := by
  have hmem : asciiLower c ∈ latin "none" := h ▸ List.mem_map_of_mem hc
  have hletter : ∀ d ∈ latin "none", isKeywordChar d = true ∧ isKeywordChar (d - 32) = true := by
    simp only [← Bool.and_eq_true]
    exact List.all_eq_true.1 (by decide)
  have hlower := hletter _ hmem
  unfold asciiLower at hlower
  split_ifs at hlower with hupper
  · rw [UInt16.add_sub_cancel] at hlower
    exact hlower.2
  · exact hlower.1

theorem WrittenNone.scans (h : WrittenNone Gap raw) :
    ∃ text, Scans raw text ∧ WrittenNone Blanks text := by
  obtain ⟨hgap, hword, hgap'⟩ := h
  obtain ⟨sp, hsp, hblanks, -⟩ := hgap.scans
  obtain ⟨sp', hsp', hblanks', -⟩ := hgap'.scans
  have hscans := Scans.units fun c hc => keyword_bare (keyword_of_none hword hc)
  exact ⟨_, (hsp.append hscans).append hsp', .mk hblanks hword hblanks'⟩

theorem WrittenServer.scans (h : WrittenServer Content raw said) :
    ∃ text, Scans raw text ∧ WrittenServer Unquotes text said := by
  cases h with
  | bare hne h => exact ⟨_, .units fun c hc => (h c hc).1, .bare hne h⟩
  | string h => exact ⟨_, h.scans, .string h.unquotes⟩

theorem WrittenHead.scans (h : WrittenHead Gap Content raw said) :
    ∃ text, Scans raw text ∧ WrittenHead Blanks Unquotes text said := by
  cases h with
  | server hgap hserver hgap' =>
    obtain ⟨sp, hsp, hblanks, -⟩ := hgap.scans
    obtain ⟨server, hscans, hwritten⟩ := hserver.scans
    obtain ⟨sp', hsp', hblanks', -⟩ := hgap'.scans
    exact ⟨_, (hsp.append hscans).append hsp', .server hblanks hwritten hblanks'⟩
  | version hgap hserver hgap' hne hgap'' =>
    obtain ⟨sp, hsp, hblanks, -⟩ := hgap.scans
    obtain ⟨server, hscans, hwritten⟩ := hserver.scans
    obtain ⟨sp', hsp', hblanks', hsome⟩ := hgap'.scans
    obtain ⟨sp'', hsp'', hblanks'', -⟩ := hgap''.scans
    have hversion : Scans VERSION VERSION := Scans.unit (c := 49) (by decide)
    exact ⟨_, (((hsp.append hscans).append hsp').append hversion).append hsp'',
      .version hblanks hwritten hblanks' (hsome hne) hblanks''⟩

theorem WrittenBody.scans {texts : List Text} {reports : List Report}
    (h : WrittenBody Gap Content texts reports) :
    ∃ texts', List.Forall₂ Scans texts texts' ∧ WrittenBody Blanks Unquotes texts' reports := by
  cases h with
  | none h =>
    obtain ⟨text, hscans, htext⟩ := h.scans
    exact ⟨[text], .cons hscans .nil, .none htext⟩
  | clauses hne h =>
    have hboth : ∃ texts', List.Forall₂ Scans texts texts' ∧
        List.Forall₂ (WrittenClause Blanks Unquotes) texts' reports := by
      clear hne
      induction h with
      | nil => exact ⟨[], .nil, .nil⟩
      | cons h _ ih =>
        obtain ⟨text, hscans, htext⟩ := h.scans
        obtain ⟨texts', hall, hwritten⟩ := ih
        exact ⟨text :: texts', .cons hscans hall, .cons htext hwritten⟩
    obtain ⟨texts', hall, hwritten⟩ := hboth
    refine ⟨texts', hall, .clauses ?_ hwritten⟩
    rintro rfl
    cases hall
    exact hne rfl

/-! ## Headers -/

theorem skipSpace_ne (hc : isSpace c = false) (h : c ∈ text) : skipSpace text ≠ [] :=
  List.ne_nil_of_mem (mem_dropWhile hc h)

theorem WrittenClause.equals_mem {G : Text → Prop} {Q : Text → Text → Prop} {report : Report}
    (h : WrittenClause G Q text report) : EQUALS ∈ text := by
  obtain ⟨_, _, _, _, _, _⟩ := h
  simp

/-- No clause of a header is blank. -/
theorem WrittenBody.ne {G : Text → Prop} {Q : Text → Text → Prop} {texts : List Text}
    {reports : List Report} (h : WrittenBody G Q texts reports) :
    texts ≠ [] ∧ ∀ text ∈ texts, skipSpace text ≠ [] := by
  cases h with
  | none h =>
    refine ⟨List.cons_ne_nil _ _, fun text hmem => ?_⟩
    rw [List.mem_singleton.1 hmem]
    obtain ⟨_, hword, _⟩ := h
    rename_i gap word gap' _ _
    obtain ⟨c, hc⟩ : ∃ c, c ∈ word := by
      refine List.exists_mem_of_ne_nil word ?_
      rintro rfl
      cases hword
    exact skipSpace_ne (keyword_bare (keyword_of_none hword hc)).1
      (List.mem_append_left _ (List.mem_append_right _ hc))
  | clauses hne h =>
    refine ⟨hne, ?_⟩
    clear hne
    induction h with
    | nil => exact fun _ h => absurd h List.not_mem_nil
    | cons h _ ih =>
      intro text hmem
      rcases List.mem_cons.1 hmem with rfl | hmem
      · exact skipSpace_ne rfl h.equals_mem
      · exact ih text hmem

/-- The clauses behind a head are cut at their semicolons. -/
theorem scan_texts {texts texts' : List Text} (h : List.Forall₂ Scans texts texts') (cut : Cut) :
    ∃ cut' : Cut,
      cut.scan (unfold (texts.flatMap fun text => [SEMICOLON] ++ text)) = some (cut', []) ∧
      cut'.clauses ++ [cut'.clause] = cut.clauses ++ cut.clause :: texts' := by
  induction h generalizing cut with
  | nil => exact ⟨cut, readLoop_end rfl, rfl⟩
  | @cons raw text texts texts' h _ ih =>
    obtain ⟨cut', hscan, hclauses⟩ := ih (cut.next.add text)
    refine ⟨cut', ?_, ?_⟩
    · rw [List.flatMap_cons, List.singleton_append, List.cons_append, unfold_cons (by decide),
        Cut.scan_turn (Cut.turn_semicolon _), h, hscan]
    · rw [hclauses]
      simp [Cut.next, Cut.add]

/-- **A written header is cut into its first piece and its clauses**, each on one line. -/
theorem Written.split {header server : Text} {reports : List Report}
    (h : Written header server reports) :
    ∃ head texts, splitClauses (unfold header) = some (head :: texts) ∧
      WrittenHead Blanks Unquotes head server ∧ WrittenBody Blanks Unquotes texts reports := by
  obtain ⟨hhead, hbody⟩ := h
  obtain ⟨head, hscans, hhead⟩ := hhead.scans
  obtain ⟨texts, hall, hbody⟩ := hbody.scans
  refine ⟨head, texts, ?_, hhead, hbody⟩
  obtain ⟨cut, hscan, hclauses⟩ := scan_texts hall (Cut.add ⟨[], []⟩ head)
  have hclauses : cut.clauses ++ [cut.clause] = head :: texts := hclauses
  obtain ⟨hne, hblank⟩ := hbody.ne
  -- The last clause is one of the body, so it is not left out.
  have hlast : skipSpace cut.clause ≠ [] := by
    refine hblank _ ?_
    have hlast := congrArg List.getLast? hclauses
    rw [List.getLast?_concat, List.getLast?_cons_of_ne_nil hne] at hlast
    exact List.mem_of_getLast? hlast.symm
  have hscan := (hscans ⟨[], []⟩ _).trans hscan
  rw [Cut.scan] at hscan
  rw [splitClauses, hscan, Option.map_some, Cut.close, if_pos (.inr hlast), hclauses]

end Huliho.AuthResults
