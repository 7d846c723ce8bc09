import Huliho.AuthResults.Quotes

/-!
# What a header says, whatever it quotes

Quoted strings reach the result of a header at two places only: the server and the `header.from` of
a dmarc clause, `keptParts` as they are written. Two headers that differ only inside comments and
inside other quoted strings say the same (**`parse_alike`**), so no text a server was got to quote
turns into a verdict. Two that differ only inside comments do whatever they say (`parse_commented`).
-/

namespace Huliho.AuthResults

section
variable (lower : Text → Text)

/-- One property more, with its value as it is written. -/
def writtenTurn (written : List (Text × Text)) (text : Text) : Turn (List (Text × Text)) UInt16 :=
  (readName text).bind fun (name, afterName) =>
    if afterName.head? ≠ some EQUALS then none
    else
      let start := skipSpace afterName.tail
      (readValue start).map fun (_, rest) =>
        let key := lower name
        (if written.any fun p => p.1 = key then written else written ++ [(key, slice start rest)],
          skipSpace rest)

/-- The `header.from` of a dmarc clause as it is written. -/
def writtenFrom (clause : Text) : Option Text :=
  (readSpec lower clause).bind fun (spec, rest) =>
    if spec.method = latin "dmarc" then
      (readLoop List.isEmpty (writtenTurn lower) [] rest).bind fun read => valueOf read.1 FROM
    else none

/-- The server as it is written, where it is quoted. -/
def writtenServer (first : Text) : Option Text :=
  let start := skipSpace first
  if start.head? = some QUOTE then (quotedEnd start.tail).map (slice start) else none

/-- The quoted values of a header that its result says: the server's and each dmarc clause's
`header.from`. -/
def keptParts (header : Text) : Option (Option Text × List (Option Text)) :=
  (splitClauses (unfold header)).map fun pieces =>
    (writtenServer (pieces.headD []), pieces.map (writtenFrom lower))

end

variable {R : Text → Text → Prop} {a b rest : Text} {lower : Text → Text}

/-! ## Properties -/

theorem propertyTurn_lt {properties properties' : List (Text × Text)}
    (h : propertyTurn lower properties a = some (properties', rest)) : rest.length < a.length := by
  obtain ⟨⟨name, afterName⟩, hname, h⟩ := Option.bind_eq_some_iff.1 h
  dsimp only at h
  have hequals : ¬ afterName.head? ≠ some EQUALS := fun hne => by
    rw [if_pos hne] at h
    cases h
  rw [if_neg hequals] at h
  obtain ⟨⟨value, rest'⟩, hvalue, h⟩ := Option.map_eq_some_iff.1 h
  obtain ⟨raw, hraw, hstart, -, -⟩ := readValue_iff.1 hvalue
  have hrest : rest = skipSpace rest' := (Prod.mk.inj h).2.symm
  have hsplit := congrArg List.length hstart
  rw [List.length_append] at hsplit
  have hname := readName_lt hname
  have hskip := (skipSpace_suffix afterName.tail).length_le
  have htail := (List.tail_suffix afterName).length_le
  have hskip' := (skipSpace_suffix rest').length_le
  rw [hrest]
  omega

/-- Whether the properties of a clause can be read does not hang on what they quote. -/
theorem properties_like (h : Like R a b) :
    Option.Rel (fun _ _ => True) (readProperties lower a) (readProperties lower b) := by
  refine rel_map (R := RestLike R) (readLoop_agree (fun s text s' text' h => ?_)
    (fun s text s' text' h _ => ?_) h) fun _ _ _ => trivial
  · exact Bool.eq_iff_iff.2 (by rw [List.isEmpty_iff, List.isEmpty_iff]; exact h.nil_iff)
  · have hturn : Option.Rel (RestLike R) (propertyTurn lower s text)
        (propertyTurn lower s' text') := by
      refine rel_bind (readName_like h) ?_
      rintro ⟨name, rest⟩ ⟨_, rest'⟩ ⟨rfl, hrest⟩
      dsimp only at hrest ⊢
      rw [← hrest.head?]
      by_cases hequals : rest.head? ≠ some EQUALS
      · rw [if_pos hequals, if_pos hequals]
        exact .none
      · rw [if_neg hequals, if_neg hequals]
        have htail : Like R rest.tail rest'.tail := hrest.tail (by rw [not_not.1 hequals]; decide)
        exact rel_map (readValue_like htail.skipSpace) fun read read' h => h.skipSpace
    refine rel_mono (rel_known hturn) ?_
    rintro left left' ⟨hleft, hturn, hturn'⟩
    exact ⟨hleft, propertyTurn_lt hturn, propertyTurn_lt hturn'⟩

/-- Properties read with what they say and as they are written. -/
def SaysWritten (properties written : List (Text × Text)) : Prop :=
  List.Forall₂ (fun p w => p.1 = w.1 ∧ Parts w.2 p.2) properties written

theorem SaysWritten.any {properties written : List (Text × Text)}
    (h : SaysWritten properties written) (key : Text) :
    (properties.any fun p => p.1 = key) = written.any fun p => p.1 = key := by
  induction h with
  | nil => rfl
  | cons h _ ih => rw [List.any_cons, List.any_cons, ih, h.1]

theorem SaysWritten.valueOf {properties written : List (Text × Text)}
    (h : SaysWritten properties written) (name : Text) :
    Option.Rel (fun value raw => Parts raw value) (valueOf properties name)
      (valueOf written name) := by
  unfold AuthResults.valueOf
  induction h with
  | nil => exact .none
  | @cons p w properties written h _ ih =>
    rw [List.find?_cons, List.find?_cons, h.1]
    by_cases hname : w.1 = name
    · rw [decide_eq_true hname]
      exact .some h.2
    · rw [decide_eq_false hname]
      exact ih

/-- The properties of a clause say what they do as they are written. -/
theorem properties_written (lower : Text → Text) (text : Text) :
    Option.Rel (fun properties (read : List (Text × Text) × Text) => SaysWritten properties read.1)
      (readProperties lower text) (readLoop List.isEmpty (writtenTurn lower) [] text) := by
  unfold readProperties
  have hloop : Option.Rel (fun left left' => SaysWritten left.1 left'.1 ∧ left.2 = left'.2)
      (readLoop List.isEmpty (propertyTurn lower) [] text)
      (readLoop List.isEmpty (writtenTurn lower) [] text) := by
    refine readLoop_agree (fun s text s' text' h => congrArg List.isEmpty h.2)
      (fun s text s' text' h _ => ?_) ⟨.nil, rfl⟩
    obtain ⟨hsaid, rfl⟩ : SaysWritten s s' ∧ text = text' := h
    have hturn : Option.Rel (fun left left' => SaysWritten left.1 left'.1 ∧ left.2 = left'.2)
        (propertyTurn lower s text) (writtenTurn lower s' text) := by
      unfold propertyTurn writtenTurn
      cases readName text with
      | none => exact .none
      | some name =>
        rw [Option.bind_some, Option.bind_some]
        dsimp only
        by_cases hequals : name.2.head? ≠ some EQUALS
        · rw [if_pos hequals, if_pos hequals]
          exact .none
        · rw [if_neg hequals, if_neg hequals]
          cases hvalue : readValue (skipSpace name.2.tail) with
          | none => exact .none
          | some read =>
            obtain ⟨raw, -, hstart, hparts, -⟩ := readValue_iff.1 hvalue
            refine .some ⟨?_, rfl⟩
            dsimp only
            rw [← hsaid.any, hstart, slice_append]
            split_ifs
            · exact hsaid
            · exact List.rel_append hsaid (.cons ⟨rfl, hparts⟩ .nil)
    refine rel_mono (rel_known hturn) ?_
    rintro left left' ⟨hleft, hturn, -⟩
    have hlt := propertyTurn_lt hturn
    exact ⟨hleft, hlt, hleft.2 ▸ hlt⟩
  have hread := rel_map (S := fun properties (read : List (Text × Text) × Text) =>
    SaysWritten properties read.1) (f := Prod.fst) (g := id) hloop fun _ _ h => h.1
  rwa [Option.map_id] at hread

/-! ## Clauses -/

/-- Two clauses that say the same, but for the domain of a clause that is no dmarc one. -/
def SameClause (clause clause' : Clause) : Prop :=
  clause.toSpec = clause'.toSpec ∧
    (clause.method = latin "dmarc" → clause.fromDomain = clause'.fromDomain)

/-- What a clause's domain is comes from `header.from` as it is written. -/
theorem valueOf_from {properties properties' written written' : List (Text × Text)}
    (h : SaysWritten properties written) (h' : SaysWritten properties' written')
    (hkept : valueOf written FROM = valueOf written' FROM) :
    valueOf properties FROM = valueOf properties' FROM := by
  have hfrom' := h'.valueOf FROM
  rw [← hkept] at hfrom'
  exact rel_unique (h.valueOf FROM) hfrom' fun _ _ _ hvalue hvalue' => hvalue.unique hvalue'

/-- **Clauses like one another say the same**, where they keep their `header.from`. -/
theorem readClause_like (h : Like R a b) (hkept : writtenFrom lower a = writtenFrom lower b) :
    Option.Rel SameClause (readClause lower a) (readClause lower b) := by
  refine rel_bind (rel_known (readSpec_like h)) ?_
  rintro ⟨spec, rest⟩ ⟨_, rest'⟩ ⟨⟨rfl, hrest⟩, hspec, hspec'⟩
  refine rel_map (rel_known (properties_like hrest)) ?_
  rintro properties properties' ⟨-, hread, hread'⟩
  refine ⟨rfl, fun hdmarc => ?_⟩
  have hdmarc : spec.method = latin "dmarc" := hdmarc
  have hwritten := properties_written lower rest
  have hwritten' := properties_written lower rest'
  unfold writtenFrom at hkept
  rw [hspec, hspec', Option.bind_some, Option.bind_some] at hkept
  dsimp only at hkept
  rw [if_pos hdmarc, if_pos hdmarc] at hkept
  rw [hread] at hwritten
  rw [hread'] at hwritten'
  cases hw : readLoop List.isEmpty (writtenTurn lower) [] rest with
  | none => rw [hw] at hwritten; cases hwritten
  | some written =>
    cases hw' : readLoop List.isEmpty (writtenTurn lower) [] rest' with
    | none => rw [hw'] at hwritten'; cases hwritten'
    | some written' =>
      rw [hw] at hwritten hkept
      rw [hw'] at hwritten' hkept
      rw [Option.rel_some_some] at hwritten hwritten'
      have hfrom := valueOf_from hwritten hwritten' hkept
      exact congrArg (Option.map fun domain => closed (lower domain)) hfrom

/-- Clauses that keep their `header.from` and are like those of another header. -/
def KeepFrom (R : Text → Text → Prop) (lower : Text → Text) (a b : Text) : Prop :=
  Like R a b ∧ writtenFrom lower a = writtenFrom lower b

theorem readClauses_like {texts texts' : List Text}
    (h : List.Forall₂ (KeepFrom R lower) texts texts') :
    Option.Rel (List.Forall₂ SameClause) (readClauses lower texts) (readClauses lower texts') := by
  have hread : Option.Rel (List.Forall₂ SameClause)
      ((texts.filter fun clause => !isNoResult clause).mapM (readClause lower))
      ((texts'.filter fun clause => !isNoResult clause).mapM (readClause lower)) := by
    induction h with
    | nil => exact .some .nil
    | @cons text text' texts texts' h _ ih =>
      rw [List.filter_cons, List.filter_cons, isNoResult_like h.1]
      split_ifs
      · rw [List.mapM_cons, List.mapM_cons]
        refine rel_bind (readClause_like h.1 h.2) fun clause clause' hclause => ?_
        exact rel_bind ih fun clauses clauses' hclauses => .some (.cons hclause hclauses)
      · exact ih
  unfold readClauses
  rw [h.length_eq]
  split_ifs
  · exact .none
  · exact hread

/-- **Clauses that say the same sum up the same.** -/
theorem summarize_like (server : Option Text) {clauses clauses' : List Clause}
    (h : List.Forall₂ SameClause clauses clauses') :
    summarize server clauses = summarize server clauses' := by
  have hverdicts : ∀ method, verdictsOf clauses method = verdictsOf clauses' method := by
    intro method
    unfold verdictsOf
    induction h with
    | nil => rfl
    | @cons clause clause' clauses clauses' h _ ih =>
      rw [List.filter_cons, List.filter_cons, h.1]
      split_ifs
      · rw [List.map_cons, List.map_cons, ih, h.1]
      · exact ih
  have hbest : ∀ method, best clauses method = best clauses' method := fun method => by
    rw [best, best, hverdicts]
  have hdmarcs : (clauses.filter fun clause => clause.method = latin "dmarc") =
      clauses'.filter fun clause => clause.method = latin "dmarc" := by
    clear hverdicts hbest
    induction h with
    | nil => rfl
    | @cons clause clause' clauses clauses' h _ ih =>
      obtain ⟨⟨method, verdict⟩, fromDomain⟩ := clause
      obtain ⟨⟨method', verdict'⟩, fromDomain'⟩ := clause'
      obtain ⟨rfl, rfl⟩ := Spec.mk.inj h.1
      rw [List.filter_cons, List.filter_cons]
      by_cases hmethod : method = latin "dmarc"
      · rw [if_pos (decide_eq_true hmethod), if_pos (decide_eq_true hmethod), ih]
        obtain rfl := h.2 hmethod
        rfl
      · rw [if_neg (by rw [decide_eq_false hmethod]; exact Bool.false_ne_true),
          if_neg (by rw [decide_eq_false hmethod]; exact Bool.false_ne_true), ih]
  unfold summarize
  rw [hdmarcs, hbest, hbest]

/-! ## The server -/

theorem fitsVersion_like (h : Like R a b) : fitsVersion a = fitsVersion b := by
  have hrest : skipSpace a = [] ↔ skipSpace b = [] := h.skipSpace.nil_iff
  have hversion : readWord a = some (VERSION, []) ↔ readWord b = some (VERSION, []) := by
    have hword := readWord_like h
    generalize readWord a = read at hword
    generalize readWord b = read' at hword
    cases hword with
    | none => exact Iff.rfl
    | some hword =>
      obtain ⟨hword, hrest⟩ := hword
      rw [Option.some.injEq, Option.some.injEq, Prod.ext_iff, Prod.ext_iff]
      exact and_congr (by rw [hword]) hrest.nil_iff
  unfold fitsVersion
  rw [decide_eq_decide.2 hrest, decide_eq_decide.2 hversion, h.head?]

theorem Like.mem_iff (h : Like R a b) : QUOTE ∈ a ↔ QUOTE ∈ b := by
  induction h with
  | nil => exact Iff.rfl
  | unit hc h ih => rw [List.mem_cons, List.mem_cons, ih]
  | quoted => exact iff_of_true List.mem_cons_self List.mem_cons_self

/-- **A quoted server is read as it is written**, whatever else the header quotes. -/
theorem readServer_quoted (h : Like R a b) (hquote : (skipSpace a).head? = some QUOTE)
    (hkept : writtenServer a = writtenServer b) : readServer a = readServer b := by
  have hstart := h.skipSpace
  have hquote' : (skipSpace b).head? = some QUOTE := hstart.head?.symm.trans hquote
  unfold writtenServer at hkept
  unfold readServer
  dsimp only at hkept ⊢
  rw [if_pos hquote, if_pos hquote'] at hkept ⊢
  generalize skipSpace a = start at *
  generalize skipSpace b = start' at *
  cases hstart with
  | nil => cases hquote
  | unit hc => exact absurd (Option.some.inj hquote) hc
  | @quoted x y a b hx hy _ h =>
    have hend : quotedEnd (QUOTE :: x ++ QUOTE :: a).tail = some a := quotedEnd_quoted hx a
    have hend' : quotedEnd (QUOTE :: y ++ QUOTE :: b).tail = some b := quotedEnd_quoted hy b
    rw [hend, hend', Option.map_some, Option.map_some, slice_quoted, slice_quoted] at hkept
    obtain rfl : x = y := by simpa [quoted] using hkept
    have hlength : ∀ rest : Text, ¬ rest.length = (QUOTE :: x ++ QUOTE :: rest).length := by
      intro rest
      rw [List.length_append, List.length_cons, List.length_cons]
      omega
    rw [readQuoted_quoted hx, readQuoted_quoted hx, Option.bind_some, Option.bind_some]
    simp only [hlength, fitsVersion_like h]

/-- A piece that does not start with a quoted string and holds one names no server. -/
theorem readServer_none (hquote : (skipSpace a).head? ≠ some QUOTE) (hmem : QUOTE ∈ a) :
    readServer a = none := by
  have hrest : QUOTE ∈ (skipSpace a).dropWhile isBareChar :=
    mem_dropWhile rfl (mem_dropWhile rfl hmem)
  have hfits : fitsVersion ((skipSpace a).dropWhile isBareChar) = false := by
    generalize (skipSpace a).dropWhile isBareChar = rest at hrest
    have hskip : skipSpace rest ≠ [] := List.ne_nil_of_mem (mem_dropWhile rfl hrest)
    have hword : readWord rest ≠ some (VERSION, []) := by
      intro hword
      unfold readWord at hword
      dsimp only at hword
      split_ifs at hword
      have hleft : QUOTE ∈ skipSpace ((skipSpace rest).dropWhile isKeywordChar) :=
        mem_dropWhile rfl (mem_dropWhile rfl (mem_dropWhile rfl hrest))
      rw [(Prod.mk.inj (Option.some.inj hword)).2] at hleft
      exact List.not_mem_nil hleft
    unfold fitsVersion
    rw [decide_eq_false hskip, decide_eq_false hword, Bool.and_false]
    rfl
  unfold readServer
  dsimp only
  rw [if_neg hquote, Option.bind_some]
  dsimp only
  rw [hfits, if_pos (Or.inr Bool.false_ne_true)]

/-! ## Headers -/

section
variable (lower)

/-- What the pieces of a header say. -/
def readPieces (pieces : List Text) : Option AuthenticationResults :=
  (readHead pieces).bind fun head =>
    (readClauses lower head.clauses).bind fun clauses => summarize head.server clauses

end

/-- A first piece that is no clause and names no server either cannot be read. -/
theorem readPieces_none {pieces : List Text} (hquote : (skipSpace a).head? ≠ some QUOTE)
    (hmem : QUOTE ∈ a) (hspec : readSpec lower a = none) :
    readPieces lower (a :: pieces) = none := by
  unfold readPieces readHead
  dsimp only [List.headD_cons]
  by_cases hequals : EQUALS ∈ a
  · have hresult : isNoResult a = false := by
      have hleft : skipSpace ((skipSpace a).dropWhile isBareChar) ≠ [] :=
        List.ne_nil_of_mem (mem_dropWhile rfl (mem_dropWhile rfl (mem_dropWhile rfl hmem)))
      unfold isNoResult
      dsimp only
      rw [decide_eq_false hleft, Bool.and_false]
    have hread : readClauses lower (a :: pieces) = none := by
      have hclause : readClause lower a = none := by rw [readClause, hspec, Option.bind_none]
      have hread : ((a :: pieces).filter fun clause => !isNoResult clause).mapM
          (readClause lower) = none := by
        rw [List.filter_cons, hresult, Bool.not_false, if_pos rfl, List.mapM_cons, hclause]
        rfl
      rw [readClauses, hread, ite_self]
    rw [if_pos ⟨hquote, hequals⟩, Option.bind_some, hread, Option.bind_none]
  · rw [if_neg fun h => hequals h.2, readServer_none hquote hmem]
    rfl

/-- **Pieces like one another say the same**, where they keep what the result says. -/
theorem readPieces_like {pieces pieces' : List Text}
    (h : List.Forall₂ (KeepFrom R lower) pieces pieces')
    (hserver : writtenServer (pieces.headD []) = writtenServer (pieces'.headD [])) :
    readPieces lower pieces = readPieces lower pieces' := by
  have hclauses : ∀ (server : Option Text) {texts texts' : List Text},
      List.Forall₂ (KeepFrom R lower) texts texts' →
      ((readClauses lower texts).bind fun clauses => summarize server clauses) =
        (readClauses lower texts').bind fun clauses => summarize server clauses := by
    intro server texts texts' h
    have hread := readClauses_like h
    generalize readClauses lower texts = read at hread
    generalize readClauses lower texts' = read' at hread
    cases hread with
    | none => rfl
    | some h => exact summarize_like server h
  cases h with
  | nil => rfl
  | @cons a b pieces pieces' h hrest =>
    have hlike := h.1
    have hhead := hlike.skipSpace.head?
    by_cases hquote : (skipSpace a).head? = some QUOTE
    · have hquote' : (skipSpace b).head? = some QUOTE := hhead.symm.trans hquote
      unfold readPieces readHead
      dsimp only [List.headD_cons, List.tail_cons] at hserver ⊢
      rw [if_neg fun h => h.1 hquote, if_neg fun h => h.1 hquote',
        readServer_quoted hlike hquote hserver]
      cases readServer b with
      | none => rfl
      | some server => exact hclauses _ hrest
    have hquote' : (skipSpace b).head? ≠ some QUOTE := fun h => hquote (hhead.trans h)
    by_cases hmem : QUOTE ∈ a
    · have hmem' : QUOTE ∈ b := hlike.mem_iff.1 hmem
      have hspec : Option.Rel (ReadLike R) (readSpec lower a) (readSpec lower b) :=
        readSpec_like hlike
      cases hread : readSpec lower a with
      | none =>
        cases hread' : readSpec lower b with
        | none => rw [readPieces_none hquote hmem hread, readPieces_none hquote' hmem' hread']
        | some => rw [hread, hread'] at hspec; cases hspec
      | some read =>
        cases hread' : readSpec lower b with
        | none => rw [hread, hread'] at hspec; cases hspec
        | some =>
          -- Both first pieces are clauses: the header names no server.
          have hequals := mem_of_readSpec hread
          have hequals' := mem_of_readSpec hread'
          unfold readPieces readHead
          dsimp only [List.headD_cons]
          rw [if_pos ⟨hquote, hequals⟩, if_pos ⟨hquote', hequals'⟩]
          exact hclauses _ (.cons h hrest)
    · have hsame : a = b := hlike.eq_of_bare fun hmem' => hmem (hlike.mem_iff.2 hmem')
      unfold readPieces readHead
      dsimp only [List.headD_cons, List.tail_cons]
      rw [← hsame]
      split_ifs
      · exact hclauses _ (.cons (hsame ▸ h) hrest)
      · cases readServer a with
        | none => rfl
        | some server => exact hclauses _ hrest

theorem keepFrom_of_keptParts {pieces pieces' : List Text}
    (h : List.Forall₂ (Like R) pieces pieces')
    (hkept : pieces.map (writtenFrom lower) = pieces'.map (writtenFrom lower)) :
    List.Forall₂ (KeepFrom R lower) pieces pieces' := by
  induction h with
  | nil => exact .nil
  | cons h _ ih =>
    rw [List.map_cons, List.map_cons] at hkept
    obtain ⟨hfrom, hrest⟩ := List.cons.inj hkept
    exact .cons ⟨h, hfrom⟩ (ih hrest)

/-- **Headers that differ inside comments and quoted strings say the same**, where they keep the
server and the `header.from` they quote. -/
theorem parse_alike {header header' : Text} (h : Alike (fun _ _ => True) header header')
    (hkept : keptParts lower header = keptParts lower header') (hbound : Bounded header)
    (hbound' : Bounded header') :
    parseAuthenticationResults lower header = parseAuthenticationResults lower header' := by
  have hsplit := alike_split (fun _ => trivial) (h.unfold fun _ _ _ => trivial)
  unfold keptParts at hkept
  rw [parseAuthenticationResults, parseAuthenticationResults, if_neg (not_not.2 hbound),
    if_neg (not_not.2 hbound')]
  generalize splitClauses (unfold header) = split at *
  generalize splitClauses (unfold header') = split' at *
  cases hsplit with
  | none => rfl
  | some hpieces =>
    obtain ⟨hserver, hfrom⟩ := Prod.mk.inj (Option.some.inj hkept)
    exact readPieces_like (keepFrom_of_keptParts hpieces hfrom) hserver

/-- Headers that differ only inside comments are cut into the same clauses. -/
theorem split_commented {header header' : Text} (h : Alike Eq header header') :
    splitClauses (unfold header) = splitClauses (unfold header') := by
  have hsplit := alike_split (fun _ => rfl) (h.unfold fun _ _ hxy => congrArg unfold hxy)
  generalize splitClauses (unfold header) = split at *
  generalize splitClauses (unfold header') = split' at *
  cases hsplit with
  | none => rfl
  | some hpieces =>
    have hsame : List.Forall₂ Eq _ _ := hpieces.imp fun _ _ h => h.eq
    rw [List.forall₂_eq_eq_eq] at hsame
    rw [hsame]

/-- **Headers that differ only inside comments say the same.** -/
theorem parse_commented {header header' : Text} (h : Alike Eq header header')
    (hbound : Bounded header) (hbound' : Bounded header') :
    parseAuthenticationResults lower header = parseAuthenticationResults lower header' := by
  rw [parseAuthenticationResults, parseAuthenticationResults, if_neg (not_not.2 hbound),
    if_neg (not_not.2 hbound'), split_commented h]

end Huliho.AuthResults
