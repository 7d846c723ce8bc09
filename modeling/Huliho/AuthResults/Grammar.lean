import Huliho.AuthResults.Words

/-!
# A written header

The grammar of the header (RFC 8601) over what may stand between its words, `G`, and what a quoted
string may hold, `Q`. As a server writes it, `G` is `Gap` (folding white space and comments) and `Q`
is `Content`. Once its lines are unfolded and its comments are spaces, they are `Blanks` and
`Unquotes`, and what was written stays: **`WrittenHead.cut`** and **`WrittenClause.cut`**.

A property is set off from what comes before it by white space or a comment: with neither, a value
would run into it.
-/

namespace Huliho.AuthResults

/-! ## Layout -/

/-- Folding white space and comments. -/
inductive Gap : Text → Prop
  | nil : Gap []
  | blank {c : UInt16} {rest : Text} (hc : isBlank c = true) (h : Gap rest) : Gap (c :: rest)
  | fold {c : UInt16} {rest : Text} (hc : isBlank c = true) (h : Gap rest) : Gap (LF :: c :: rest)
  | crlf {c : UInt16} {rest : Text} (hc : isBlank c = true) (h : Gap rest) :
      Gap (CR :: LF :: c :: rest)
  | comment {inner rest : Text} (hinner : Inside inner) (h : Gap rest) :
      Gap (OPEN :: inner ++ CLOSE :: rest)

/-- What a quoted string holds, with what it says: lines may fold, and a pair says its second unit.
-/
inductive Content : Text → Text → Prop
  | nil : Content [] []
  | unit {c : UInt16} {inner said : Text} (hc : c ≠ QUOTE ∧ c ≠ BACKSLASH ∧ c ≠ CR ∧ c ≠ LF)
      (h : Content inner said) : Content (c :: inner) (c :: said)
  | pair {c : UInt16} {inner said : Text} (hc : c ≠ CR ∧ c ≠ LF) (h : Content inner said) :
      Content (BACKSLASH :: c :: inner) (c :: said)
  | fold {c : UInt16} {inner said : Text} (hc : isBlank c = true) (h : Content inner said) :
      Content (LF :: c :: inner) (c :: said)
  | crlf {c : UInt16} {inner said : Text} (hc : isBlank c = true) (h : Content inner said) :
      Content (CR :: LF :: c :: inner) (c :: said)

/-- Spaces and tabs. -/
def Blanks (text : Text) : Prop := ∀ c ∈ text, isBlank c = true

/-- A quoted string on one line, with what it says. -/
def Unquotes (inner said : Text) : Prop := Quoted inner ∧ unescape inner = said

/-- A unit that stands for itself in the header. -/
def Bare (c : UInt16) : Prop := isSpace c = false ∧ Plain c ∧ c ≠ SEMICOLON

instance (c : UInt16) : Decidable (Bare c) := inferInstanceAs (Decidable (_ ∧ _ ∧ _))

/-- A keyword. -/
def Word (text : Text) : Prop := text ≠ [] ∧ ∀ c ∈ text, isKeywordChar c = true

/-- What a clause reports. -/
structure Report where
  method : Text
  version : Option Text
  result : Text
  properties : List (Text × Text)

section
variable (G : Text → Prop) (Q : Text → Text → Prop)

/-! ## Grammar -/

/-- A value: bare units and quoted strings. -/
inductive WrittenValue : Text → Text → Prop
  | nil : WrittenValue [] []
  | unit {c : UInt16} {rest said : Text} (hc : Bare c) (h : WrittenValue rest said) :
      WrittenValue ([c] ++ rest) ([c] ++ said)
  | string {inner said rest said' : Text} (hinner : Q inner said) (h : WrittenValue rest said') :
      WrittenValue (quoted inner ++ rest) (said ++ said')

/-- A property name: a ptype with a dot and a property, or a bare word. -/
inductive WrittenName : Text → Text → Prop
  | word {name : Text} (hname : Word name) : WrittenName name name
  | dotted {ptype gap gap' property : Text} (hptype : Word ptype) (hgap : G gap) (hgap' : G gap')
      (hproperty : Word property) :
      WrittenName (ptype ++ gap ++ [DOT] ++ gap' ++ property) (ptype ++ DOT :: property)

inductive WrittenProperty : Text → Text × Text → Prop
  | mk {name key gap gap' value said : Text} (hname : WrittenName G name key) (hgap : G gap)
      (hgap' : G gap') (hvalue : WrittenValue Q value said) (hne : value ≠ []) :
      WrittenProperty (name ++ gap ++ [EQUALS] ++ gap' ++ value) (key, said)

/-- The properties of a clause, each set off, and what follows the last one. -/
inductive WrittenProperties : Text → List (Text × Text) → Prop
  | nil {gap : Text} (hgap : G gap) : WrittenProperties gap []
  | cons {gap property rest : Text} {p : Text × Text} {properties : List (Text × Text)}
      (hgap : G gap) (hne : gap ≠ []) (hproperty : WrittenProperty G Q property p)
      (h : WrittenProperties rest properties) :
      WrittenProperties (gap ++ property ++ rest) (p :: properties)

inductive WrittenMethod : Text → Text → Option Text → Prop
  | bare {method : Text} (hmethod : Word method) : WrittenMethod method method none
  | version {method gap gap' version : Text} (hmethod : Word method) (hgap : G gap)
      (hgap' : G gap') (hversion : version ≠ []) (hdigits : ∀ c ∈ version, isDigit c = true) :
      WrittenMethod (method ++ gap ++ [SLASH] ++ gap' ++ version) method (some version)

inductive WrittenClause : Text → Report → Prop
  | mk {gap spec gap' gap'' rest : Text} {report : Report} (hgap : G gap)
      (hmethod : WrittenMethod G spec report.method report.version) (hgap' : G gap')
      (hgap'' : G gap'') (hresult : Word report.result)
      (hproperties : WrittenProperties G Q rest report.properties) :
      WrittenClause (gap ++ spec ++ gap' ++ [EQUALS] ++ gap'' ++ report.result ++ rest) report

/-- The bare `none` of a header without results. -/
inductive WrittenNone : Text → Prop
  | mk {gap word gap' : Text} (hgap : G gap) (hword : word.map asciiLower = latin "none")
      (hgap' : G gap') : WrittenNone (gap ++ word ++ gap')

inductive WrittenServer : Text → Text → Prop
  | bare {server : Text} (hne : server ≠ []) (h : ∀ c ∈ server, Bare c ∧ c ≠ EQUALS) :
      WrittenServer server server
  | string {inner said : Text} (h : Q inner said) : WrittenServer (quoted inner) said

/-- The first piece: the server and, where it is written, the version. -/
inductive WrittenHead : Text → Text → Prop
  | server {gap server said gap' : Text} (hgap : G gap) (hserver : WrittenServer Q server said)
      (hgap' : G gap') : WrittenHead (gap ++ server ++ gap') said
  | version {gap server said gap' gap'' : Text} (hgap : G gap)
      (hserver : WrittenServer Q server said) (hgap' : G gap') (hne : gap' ≠ [])
      (hgap'' : G gap'') :
      WrittenHead (gap ++ server ++ gap' ++ VERSION ++ gap'') said

/-- What follows the first piece: the clauses, or the bare `none` where there are no results. -/
inductive WrittenBody : List Text → List Report → Prop
  | none {text : Text} (h : WrittenNone G text) : WrittenBody [text] []
  | clauses {texts : List Text} {reports : List Report} (hne : texts ≠ [])
      (h : List.Forall₂ (WrittenClause G Q) texts reports) : WrittenBody texts reports

end

/-- A header a server writes of itself and what it reports. -/
inductive Written : Text → Text → List Report → Prop
  | mk {head server : Text} {texts : List Text} {reports : List Report}
      (hhead : WrittenHead Gap Content head server)
      (hbody : WrittenBody Gap Content texts reports) :
      Written (head ++ texts.flatMap fun text => [SEMICOLON] ++ text) server reports

end Huliho.AuthResults
