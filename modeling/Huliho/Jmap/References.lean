import Huliho.Lib.Budget
import Huliho.Lib.Decimals
import Huliho.Lib.Json

/-!
# Result references

`jmap/references.rs`: an argument written as `#name` points into an earlier response through a JSON
pointer, every copy charged to a budget before it is made. `Points` is what a pointer with stars points
at, on its own terms; `walk` answers that and nothing else, weighs no more than it took
(**`walk_gains`**), and fails where nothing is there or the budget does not reach (`walk_fails`).
`pointer` reads the path of a reference and answers what it points at in a response
(**`pointer_gains`**).
-/

namespace Huliho.References

open Budgeted Json

abbrev Text := List Char
abbrev Fields := List (String × Json)

/-- A method-level error. -/
inductive MethodError
  | unknownMethod
  | invalidArguments (why : String)
  | invalidResultReference (why : String)
  | accountNotFound
  | accountNotSupportedByMethod
  | requestTooLarge
  | cannotCalculateChanges
  | unsupportedFilter (why : String)
  | unsupportedSort
  | anchorNotFound
  | stateMismatch
  | serverFail
  | serverUnavailable
deriving DecidableEq

namespace MethodError

def kind : MethodError → String
  | unknownMethod => "unknownMethod"
  | invalidArguments _ => "invalidArguments"
  | invalidResultReference _ => "invalidResultReference"
  | accountNotFound => "accountNotFound"
  | accountNotSupportedByMethod => "accountNotSupportedByMethod"
  | requestTooLarge => "requestTooLarge"
  | cannotCalculateChanges => "cannotCalculateChanges"
  | unsupportedFilter _ => "unsupportedFilter"
  | unsupportedSort => "unsupportedSort"
  | anchorNotFound => "anchorNotFound"
  | stateMismatch => "stateMismatch"
  | serverFail => "serverFail"
  | serverUnavailable => "serverUnavailable"

/-- The object an error answers as: its type, and why where it says so. -/
def object (error : MethodError) : Fields :=
  ("type", .str error.kind) ::
    match error with
    | invalidArguments why | invalidResultReference why | unsupportedFilter why =>
      [("description", .str why)]
    | _ => []

end MethodError

/-- The weight result references may resolve to in total: the size of the largest request. -/
def MAX_REFERENCE_WEIGHT : Nat := 1024 * 1024

def NOTHING_THERE : MethodError :=
  .invalidResultReference "the path of a reference points at nothing"

def WRONG_NAME : MethodError :=
  .invalidResultReference "a reference names another method than the response"

def OVER_BUDGET : MethodError :=
  .invalidResultReference "the references of the request resolve to more than the server allows"

def BOTH_FORMS : MethodError :=
  .invalidArguments "an argument was given both plainly and as a reference"

def NO_REFERENCE : MethodError :=
  .invalidResultReference "a reference is not a ResultReference object"

def NO_RESPONSE : MethodError :=
  .invalidResultReference "a reference names no earlier response"

/-! ## Sizes -/

section

-- what a node weighs on top of its text: the size of a value in memory
variable (NODE_WEIGHT : Nat)

mutual

/-- The size of a value: its nodes, and the bytes of every string and key. -/
def weight : Json → Nat
  | .str text => NODE_WEIGHT + text.utf8ByteSize
  | .arr items => NODE_WEIGHT + weightItems items
  | .obj fields => NODE_WEIGHT + weightFields fields
  | _ => NODE_WEIGHT

def weightItems : List Json → Nat
  | [] => 0
  | item :: items => weight item + weightItems items

def weightFields : List (String × Json) → Nat
  | [] => 0
  | (key, item) :: fields => key.utf8ByteSize + weight item + weightFields fields

end

mutual

/-- Takes the weight of a value, node by node. -/
def charge : Json → Budgeted MethodError Unit
  | .str text => take (NODE_WEIGHT + text.utf8ByteSize) OVER_BUDGET
  | .arr items => do
    take NODE_WEIGHT OVER_BUDGET
    chargeItems items
  | .obj fields => do
    take NODE_WEIGHT OVER_BUDGET
    chargeFields fields
  | _ => take NODE_WEIGHT OVER_BUDGET

def chargeItems : List Json → Budgeted MethodError Unit
  | [] => pure ()
  | item :: items => do
    charge item
    chargeItems items

def chargeFields : List (String × Json) → Budgeted MethodError Unit
  | [] => pure ()
  | (key, item) :: fields => do
    take key.utf8ByteSize OVER_BUDGET
    charge item
    chargeFields fields

end

/-- Takes the weight of a response. -/
def chargeObject (fields : Fields) : Budgeted MethodError Unit := do
  take NODE_WEIGHT OVER_BUDGET
  chargeFields NODE_WEIGHT fields

/-! ## The walk -/

/-- A number as it is parsed: digits, a sign ahead of them or none. An index past the address space is
past every array, so the size of the machine's numbers is left out. -/
def parseIndex (text : Text) : Option Nat :=
  let digits := if text.head? = some '+' then text.tail else text
  if digits ≠ [] ∧ digits.all Char.isDigit then some (Nat.ofDigitChars 10 digits 0) else none

/-- An index of an array: `0` or digits without a leading zero. -/
def index (token : Text) : Option Nat := (parseIndex token).filter fun n => decimal n = token

/-- What one item adds to the array of a star: the items of an array, any other value itself. -/
def flat : Json → List Json
  | .arr inner => inner
  | other => [other]

/-- The loop of a star: each item walked in order, what it gives behind what the others gave. -/
def gather (walked : Json → Budgeted MethodError Json) :
    List Json → List Json → Budgeted MethodError (List Json)
  | [], out => pure out
  | item :: items, out => do
    let found ← walked item
    gather walked items (out ++ flat found)

/-- Every copy is charged first: a target before its clone, the array a star builds before its first
item. -/
def walk : List Text → Json → Budgeted MethodError Json
  | [], value => do
    charge NODE_WEIGHT value
    pure value
  | token :: rest, .arr items =>
    if token = ['*'] then do
      take NODE_WEIGHT OVER_BUDGET
      let out ← gather (walk rest) items []
      pure (.arr out)
    else
      match (index token).bind fun n => items[n]? with
      | some next => walk rest next
      | none => fail NOTHING_THERE
  | token :: rest, .obj fields =>
    match lookup fields (String.ofList token) with
    | some next => walk rest next
    | none => fail NOTHING_THERE
  | _ :: _, _ => fail NOTHING_THERE

/-- One token of a pointer with its escapes undone; `none` for a `~` that opens none. -/
def unescaped : Text → Option Text
  | [] => some []
  | '~' :: '0' :: token => (unescaped token).map ('~' :: ·)
  | '~' :: '1' :: token => (unescaped token).map ('/' :: ·)
  | '~' :: _ => none
  | c :: token => (unescaped token).map (c :: ·)

/-- A JSON pointer into a response. -/
def pointer (response : Fields) (path : String) : Budgeted MethodError Json :=
  match path.toList with
  | [] => do
    chargeObject NODE_WEIGHT response
    pure (.obj response)
  | '/' :: tokens =>
    match (tokens.splitOn '/').mapM unescaped with
    | some (first :: rest) =>
      match lookup response (String.ofList first) with
      | some value => walk NODE_WEIGHT rest value
      | none => fail NOTHING_THERE
    | _ => fail NOTHING_THERE
  | _ => fail NOTHING_THERE

/-! ## The arguments of a call -/

/-- A call or a response: its method, its arguments or its result, and its id. -/
structure Invocation where
  method : String
  arguments : Fields
  id : String

structure ResultReference where
  resultOf : String
  name : String
  path : String

/-- A reference as it is deserialized: an object of its three strings and no other member, or the three
strings in an array. -/
def readReference : Json → Option ResultReference
  | .obj fields =>
    if fields.all fun field => ["resultOf", "name", "path"].contains field.1 then do
      let resultOf ← (lookup fields "resultOf").bind asStr
      let name ← (lookup fields "name").bind asStr
      let path ← (lookup fields "path").bind asStr
      pure ⟨resultOf, name, path⟩
    else none
  | .arr [.str resultOf, .str name, .str path] => some ⟨resultOf, name, path⟩
  | _ => none

/-- The loop of `resolve`: the arguments left to read and those resolved. -/
def resolveLoop (arguments : Fields) (previous : List Invocation) :
    Fields → Fields → Budgeted MethodError Fields
  | [], resolved => pure resolved
  | (name, value) :: rest, resolved =>
    match name.toList with
    | '#' :: plain =>
      if (lookup arguments (String.ofList plain)).isSome then fail BOTH_FORMS
      else
        match readReference value with
        | none => fail NO_REFERENCE
        | some reference =>
          match previous.find? fun answer => answer.id = reference.resultOf with
          | none => fail NO_RESPONSE
          | some answer =>
            if answer.method ≠ reference.name then fail WRONG_NAME
            else do
              let found ← pointer NODE_WEIGHT answer.arguments reference.path
              resolveLoop arguments previous rest (insert resolved (String.ofList plain) found)
    | _ => resolveLoop arguments previous rest (insert resolved name value)

/-- The arguments of a call with every reference replaced by the value it points at. -/
def resolve (arguments : Fields) (previous : List Invocation) : Budgeted MethodError Fields :=
  resolveLoop NODE_WEIGHT arguments previous arguments []

end

/-! ## What a pointer points at -/

/-- A name as a token of a pointer writes it. -/
def escaped (name : Text) : Text :=
  name.flatMap fun c => if c = '~' then ['~', '0'] else if c = '/' then ['~', '1'] else [c]

/-- A pointer as it is written: every token behind a slash. -/
def written (names : List Text) : Text := names.flatMap fun name => '/' :: escaped name

/-- What the tokens of a pointer point at: a member by its name, an item by its index, and at a `*` the
array of what the rest points at in every item, each array among them flattened. -/
def Points : List Text → Json → Json → Prop
  | [], value, result => result = value
  | token :: rest, .arr items, result =>
    (token = ['*'] ∧ ∃ results, List.Forall₂ (Points rest) items results ∧
      result = .arr (results.flatMap flat)) ∨
    ∃ n next, token = decimal n ∧ items[n]? = some next ∧ Points rest next result
  | token :: rest, .obj fields, result =>
    ∃ next, lookup fields (String.ofList token) = some next ∧ Points rest next result
  | _ :: _, _, _ => False

/-- What a pointer points at in a response. -/
def PointsAt (response : Fields) (path : String) (result : Json) : Prop :=
  ∃ names, path.toList = written names ∧ Points names (.obj response) result

section

variable {NODE_WEIGHT n : Nat} {token rest name text : Text} {names tokens : List Text}
variable {items out results : List Json} {value result : Json} {response fields : Fields}

/-! ## Tokens -/

theorem index_eq_some : index token = some n ↔ token = decimal n := by
  rw [index, Option.filter_eq_some_iff]
  refine ⟨fun h => (of_decide_eq_true h.2).symm, fun h => ⟨?_, decide_eq_true h.symm⟩⟩
  have hdigits : (decimal n).all Char.isDigit :=
    List.all_eq_true.2 fun c hc => isDigit_of_mem_decimal hc
  have hsign : ¬ (decimal n).head? = some '+' := fun hhead =>
    absurd (isDigit_of_mem_decimal (List.mem_of_head? hhead)) (by decide)
  rw [h, parseIndex, if_neg hsign, if_pos ⟨decimal_ne_nil, hdigits⟩, decimal,
    Nat.ofDigitChars_ten_toDigits]

theorem star_ne_decimal : ['*'] ≠ decimal n := by
  intro h
  have hdigit : '*'.isDigit := isDigit_of_mem_decimal (h ▸ List.mem_singleton_self '*')
  exact absurd hdigit (by decide)

theorem unescaped_escaped (name : Text) : unescaped (escaped name) = some name := by
  induction name with
  | nil => rfl
  | cons c name ih =>
    rw [escaped] at ih ⊢
    rw [List.flatMap_cons]
    by_cases htilde : c = '~'
    · rw [if_pos htilde, List.cons_append, List.singleton_append, unescaped, ih, htilde]
      rfl
    · by_cases hslash : c = '/'
      · rw [if_neg htilde, if_pos hslash, List.cons_append, List.singleton_append, unescaped, ih,
          hslash]
        rfl
      · rw [if_neg htilde, if_neg hslash, List.singleton_append]
        have hplain : ∀ rest, unescaped (c :: rest) = (unescaped rest).map (c :: ·) := by
          intro rest
          rw [unescaped]
          all_goals simp [htilde]
        rw [hplain, ih]
        rfl

/-- A token that is read is the name as a pointer writes it. -/
theorem escaped_unescaped (h : unescaped token = some name) (hslash : '/' ∉ token) :
    escaped name = token := by
  fun_induction unescaped token generalizing name with
  | case1 =>
    obtain rfl := Option.some.inj h
    rfl
  | case2 token ih =>
    obtain ⟨tail, htail, rfl⟩ := Option.map_eq_some_iff.1 h
    have hrest : '/' ∉ token := fun hin => hslash (by simp [hin])
    rw [escaped, List.flatMap_cons, if_pos rfl]
    exact congrArg (['~', '0'] ++ ·) (ih htail hrest)
  | case3 token ih =>
    obtain ⟨tail, htail, rfl⟩ := Option.map_eq_some_iff.1 h
    have hrest : '/' ∉ token := fun hin => hslash (by simp [hin])
    rw [escaped, List.flatMap_cons, if_neg (by decide), if_pos rfl]
    exact congrArg (['~', '1'] ++ ·) (ih htail hrest)
  | case4 token => cases h
  | case5 c token hzero hone htilde ih =>
    obtain ⟨tail, htail, rfl⟩ := Option.map_eq_some_iff.1 h
    obtain ⟨hfirst, hrest⟩ := not_or.1 (mt List.mem_cons.2 hslash)
    rw [escaped, List.flatMap_cons, if_neg htilde, if_neg (Ne.symm hfirst)]
    exact congrArg ([c] ++ ·) (ih htail hrest)

theorem slash_notMem_escaped (name : Text) : '/' ∉ escaped name := by
  intro h
  obtain ⟨c, -, hc⟩ := List.mem_flatMap.1 h
  split at hc
  · exact absurd hc (by decide)
  · split at hc
    · exact absurd hc (by decide)
    · rename_i hslash
      exact hslash (List.mem_singleton.1 hc).symm

theorem slash_notMem_splitOn {part : Text} (h : part ∈ text.splitOn '/') : '/' ∉ part := by
  induction text generalizing part with
  | nil =>
    rw [List.splitOn_nil] at h
    rw [List.mem_singleton.1 h]
    exact List.not_mem_nil
  | cons c text ih =>
    rw [List.splitOn_cons_eq_if_modifyHead] at h
    split at h
    · rcases List.mem_cons.1 h with rfl | h
      · exact List.not_mem_nil
      · exact ih h
    · rename_i hother
      cases hparts : text.splitOn '/' with
      | nil => exact absurd hparts (List.splitOn_ne_nil '/' text)
      | cons first parts =>
        rw [hparts, List.modifyHead_cons] at h
        rcases List.mem_cons.1 h with rfl | h
        · intro hin
          rcases List.mem_cons.1 hin with hslash | hin
          · exact hother (beq_iff_eq.2 hslash.symm)
          · exact ih (hparts ▸ List.mem_cons_self) hin
        · exact ih (hparts ▸ List.mem_cons_of_mem first h)

theorem written_eq_intercalate (h : names ≠ []) :
    written names = '/' :: ['/'].intercalate (names.map escaped) := by
  induction names with
  | nil => exact absurd rfl h
  | cons name names ih =>
    by_cases hnames : names = []
    · subst hnames
      simp [written, List.intercalate_singleton]
    · have hmap : names.map escaped ≠ [] := by simpa using hnames
      rw [written, List.flatMap_cons, List.map_cons, List.intercalate_cons_of_ne_nil hmap]
      change _ ++ written names = _
      rw [ih hnames]
      simp

/-- Parts between slashes are read as the names they write, and no other. -/
theorem mapM_unescaped {parts : List Text} (hslash : ∀ part ∈ parts, '/' ∉ part) :
    parts.mapM unescaped = some names ↔ parts = names.map escaped := by
  induction parts generalizing names with
  | nil =>
    rw [List.mapM_nil, eq_comm (a := []), List.map_eq_nil_iff]
    exact ⟨fun h => (Option.some.inj h).symm, fun h => congrArg some h.symm⟩
  | cons part parts ih =>
    obtain ⟨hpart, hparts⟩ := List.forall_mem_cons.1 hslash
    rw [List.mapM_cons]
    simp only [Option.bind_eq_bind, Option.bind_eq_some_iff, Option.pure_def, Option.some.injEq]
    constructor
    · rintro ⟨name, hname, rest, hrest, rfl⟩
      rw [List.map_cons, escaped_unescaped hname hpart, ← (ih hparts).1 hrest]
    · intro h
      obtain ⟨name, rest, rfl, hname, hrest⟩ := List.map_eq_cons_iff.1 h.symm
      refine ⟨name, ?_, rest, (ih hparts).2 hrest.symm, rfl⟩
      rw [← hname, unescaped_escaped]

/-- The tokens of a path are read as the names it writes, and no other. -/
theorem tokens_eq_some : (text.splitOn '/').mapM unescaped = some names ↔
    names ≠ [] ∧ '/' :: text = written names := by
  rw [mapM_unescaped fun part hpart => slash_notMem_splitOn hpart]
  by_cases hne : names = []
  · subst hne
    exact ⟨fun h => absurd h (List.splitOn_ne_nil '/' text), fun h => absurd rfl h.1⟩
  rw [written_eq_intercalate hne]
  constructor
  · intro h
    refine ⟨hne, ?_⟩
    rw [← h, List.intercalate_splitOn]
  · rintro ⟨-, h⟩
    rw [(List.cons.inj h).2, List.splitOn_intercalate]
    · intro part hpart
      obtain ⟨name, -, rfl⟩ := List.mem_map.1 hpart
      exact slash_notMem_escaped name
    · simpa using hne

/-! ## What the walk takes and answers -/

/-- How a step of the walk may fail: for the budget, or since nothing is there. -/
def Failing (there : Prop) (error : MethodError) : Prop :=
  error = OVER_BUDGET ∨ (error = NOTHING_THERE ∧ ¬ there)

mutual

/-- A charge takes the size of a value. -/
theorem charge_gains : ∀ (value : Json),
    Gains (charge NODE_WEIGHT value) fun _ taken => taken = weight NODE_WEIGHT value
  | .str _ => by
    rw [charge]
    exact gains_take
  | .arr items => by
    rw [charge]
    refine Gains.bind (gains_take) fun _ spent hspent => ?_
    refine (chargeItems_gains items).imp fun _ taken htaken => ?_
    rw [weight, hspent, htaken]
  | .obj fields => by
    rw [charge]
    refine Gains.bind (gains_take) fun _ spent hspent => ?_
    refine (chargeFields_gains fields).imp fun _ taken htaken => ?_
    rw [weight, hspent, htaken]
  | .null => gains_take
  | .bool _ => gains_take
  | .num _ => gains_take

theorem chargeItems_gains : ∀ (items : List Json),
    Gains (chargeItems NODE_WEIGHT items) fun _ taken => taken = weightItems NODE_WEIGHT items
  | [] => by
    rw [chargeItems]
    exact gains_pure rfl
  | item :: items => by
    rw [chargeItems]
    refine Gains.bind (charge_gains item) fun _ spent hspent => ?_
    refine (chargeItems_gains items).imp fun _ taken htaken => ?_
    rw [weightItems, hspent, htaken]

theorem chargeFields_gains : ∀ (fields : List (String × Json)),
    Gains (chargeFields NODE_WEIGHT fields) fun _ taken => taken = weightFields NODE_WEIGHT fields
  | [] => by
    rw [chargeFields]
    exact gains_pure rfl
  | (key, item) :: fields => by
    rw [chargeFields]
    refine Gains.bind (gains_take) fun _ first hfirst => ?_
    refine Gains.bind (charge_gains item) fun _ spent hspent => ?_
    refine (chargeFields_gains fields).imp fun _ taken htaken => ?_
    rw [weightFields, hfirst, hspent, htaken, Nat.add_assoc]

end

mutual

theorem charge_fails : ∀ (value : Json), Fails (charge NODE_WEIGHT value) (· = OVER_BUDGET)
  | .str _ => by
    rw [charge]
    exact fails_take rfl
  | .arr items => by
    rw [charge]
    exact Fails.bind (fails_take rfl) (gains_take) fun _ _ _ => chargeItems_fails items
  | .obj fields => by
    rw [charge]
    exact Fails.bind (fails_take rfl) (gains_take) fun _ _ _ => chargeFields_fails fields
  | .null => fails_take rfl
  | .bool _ => fails_take rfl
  | .num _ => fails_take rfl

theorem chargeItems_fails : ∀ (items : List Json),
    Fails (chargeItems NODE_WEIGHT items) (· = OVER_BUDGET)
  | [] => by
    rw [chargeItems]
    exact fails_pure
  | item :: items => by
    rw [chargeItems]
    exact Fails.bind (charge_fails item) (charge_gains item) fun _ _ _ => chargeItems_fails items

theorem chargeFields_fails : ∀ (fields : List (String × Json)),
    Fails (chargeFields NODE_WEIGHT fields) (· = OVER_BUDGET)
  | [] => by
    rw [chargeFields]
    exact fails_pure
  | (key, item) :: fields => by
    rw [chargeFields]
    refine Fails.bind (fails_take rfl) (gains_take) fun _ _ _ => ?_
    exact Fails.bind (charge_fails item) (charge_gains item) fun _ _ _ => chargeFields_fails fields

end

mutual

theorem charge_frugal : ∀ (value : Json), Frugal (charge NODE_WEIGHT value)
  | .str _ => by
    rw [charge]
    exact frugal_take
  | .arr items => by
    rw [charge]
    exact frugal_take.bind fun _ => chargeItems_frugal items
  | .obj fields => by
    rw [charge]
    exact frugal_take.bind fun _ => chargeFields_frugal fields
  | .null => frugal_take
  | .bool _ => frugal_take
  | .num _ => frugal_take

theorem chargeItems_frugal : ∀ (items : List Json), Frugal (chargeItems NODE_WEIGHT items)
  | [] => by
    rw [chargeItems]
    exact frugal_pure
  | item :: items => by
    rw [chargeItems]
    exact (charge_frugal item).bind fun _ => chargeItems_frugal items

theorem chargeFields_frugal : ∀ (fields : List (String × Json)),
    Frugal (chargeFields NODE_WEIGHT fields)
  | [] => by
    rw [chargeFields]
    exact frugal_pure
  | (key, item) :: fields => by
    rw [chargeFields]
    exact frugal_take.bind fun _ => (charge_frugal item).bind fun _ => chargeFields_frugal fields

end

/-- The sizes of some values together. -/
theorem weightItems_append (items out : List Json) :
    weightItems NODE_WEIGHT (items ++ out) =
      weightItems NODE_WEIGHT items + weightItems NODE_WEIGHT out := by
  induction items with
  | nil => rw [List.nil_append, weightItems, Nat.zero_add]
  | cons item items ih => rw [List.cons_append, weightItems, weightItems, ih, Nat.add_assoc]

/-- Flattening adds nothing to the size of a value. -/
theorem weightItems_flat_le (value : Json) :
    weightItems NODE_WEIGHT (flat value) ≤ weight NODE_WEIGHT value := by
  cases value with
  | arr items =>
    rw [flat, weight]
    exact Nat.le_add_left _ _
  | _ => exact Nat.le_refl _

/-- The loop of a star answers what the walk does item by item, flattened, and takes its size. -/
theorem gather_gains {walked : Json → Budgeted MethodError Json} {Q : Json → Json → Prop}
    (hwalked : ∀ item, Gains (walked item) fun found taken =>
      Q item found ∧ weight NODE_WEIGHT found ≤ taken) (items out : List Json) :
    Gains (gather walked items out) fun all taken =>
      ∃ results, List.Forall₂ Q items results ∧ all = out ++ results.flatMap flat ∧
        weightItems NODE_WEIGHT all ≤ weightItems NODE_WEIGHT out + taken := by
  induction items generalizing out with
  | nil => exact gains_pure ⟨[], .nil, (List.append_nil out).symm, Nat.le_refl _⟩
  | cons item items ih =>
    rw [gather]
    refine Gains.bind (hwalked item) fun found spent hfound => ?_
    obtain ⟨hQ, hweight⟩ := hfound
    refine (ih (out ++ flat found)).imp fun all taken hall => ?_
    obtain ⟨results, hresults, rfl, hsize⟩ := hall
    refine ⟨found :: results, .cons hQ hresults, ?_, ?_⟩
    · rw [List.flatMap_cons, List.append_assoc]
    · rw [weightItems_append out] at hsize
      have hflat : weightItems NODE_WEIGHT (flat found) ≤ weight NODE_WEIGHT found :=
        weightItems_flat_le found
      omega

/-- **A walk that succeeds answers what its tokens point at, and takes its size.** -/
theorem walk_gains (tokens : List Text) (value : Json) :
    Gains (walk NODE_WEIGHT tokens value) fun found taken =>
      Points tokens value found ∧ weight NODE_WEIGHT found ≤ taken := by
  induction tokens generalizing value with
  | nil =>
    rw [walk]
    refine Gains.bind (charge_gains value) fun _ spent hspent => gains_pure ⟨rfl, ?_⟩
    rw [hspent, Nat.add_zero]
  | cons token rest ih =>
    cases value with
    | arr items =>
      rw [walk]
      split
      · rename_i hstar
        refine Gains.bind (gains_take) fun _ spent hspent => ?_
        refine Gains.bind (gather_gains ih items []) fun out taken hout => gains_pure ?_
        obtain ⟨results, hresults, rfl, hsize⟩ := hout
        refine ⟨.inl ⟨hstar, results, hresults, rfl⟩, ?_⟩
        rw [weightItems, Nat.zero_add] at hsize
        rw [weight, hspent]
        omega
      · split
        · rename_i next hnext
          obtain ⟨n, hindex, hitem⟩ := Option.bind_eq_some_iff.1 hnext
          refine (ih next).imp fun found taken hfound => ?_
          exact ⟨.inr ⟨n, next, index_eq_some.1 hindex, hitem, hfound.1⟩, hfound.2⟩
        · exact gains_fail
    | obj fields =>
      rw [walk]
      split
      · rename_i next hnext
        exact (ih next).imp fun found taken hfound => ⟨⟨next, hnext, hfound.1⟩, hfound.2⟩
      · exact gains_fail
    | _ => exact gains_fail

/-- The loop of a star fails where the walk of an item does. -/
theorem gather_fails {walked : Json → Budgeted MethodError Json} {Q : Json → Json → Prop}
    (hgains : ∀ item, Gains (walked item) fun found _ => Q item found)
    (hfails : ∀ item, Fails (walked item) (Failing (∃ found, Q item found)))
    (items out : List Json) :
    Fails (gather walked items out) (Failing (∃ results, List.Forall₂ Q items results)) := by
  induction items generalizing out with
  | nil => exact fails_pure
  | cons item items ih =>
    rw [gather]
    refine Fails.bind (Q := fun found _ => Q item found) ?_ (hgains item) fun found _ hfound => ?_
    · intro left error rest herror
      rcases hfails item _ _ _ herror with hover | ⟨hnothing, hnone⟩
      · exact .inl hover
      · refine .inr ⟨hnothing, ?_⟩
        rintro ⟨results, hresults⟩
        cases hresults with
        | cons hfirst hrest => exact hnone ⟨_, hfirst⟩
    · intro left error rest herror
      rcases ih _ _ _ _ herror with hover | ⟨hnothing, hnone⟩
      · exact .inl hover
      · refine .inr ⟨hnothing, ?_⟩
        rintro ⟨results, hresults⟩
        cases hresults with
        | cons hfirst hrest => exact hnone ⟨_, hrest⟩

/-- **A walk fails where nothing is there, or for the budget.** -/
theorem walk_fails (tokens : List Text) (value : Json) :
    Fails (walk NODE_WEIGHT tokens value) (Failing (∃ found, Points tokens value found)) := by
  induction tokens generalizing value with
  | nil =>
    rw [walk]
    refine Fails.bind ?_ (charge_gains value) fun _ _ _ => fails_pure
    intro left error rest herror
    exact .inl (charge_fails value _ _ _ herror)
  | cons token rest ih =>
    have hnone : ∀ {value : Json}, (¬ ∃ found, Points (token :: rest) value found) →
        Fails (fail NOTHING_THERE : Budgeted MethodError Json)
          (Failing (∃ found, Points (token :: rest) value found)) :=
      fun h => fails_fail (.inr ⟨rfl, h⟩)
    cases value with
    | arr items =>
      rw [walk]
      split
      · rename_i hstar
        subst hstar
        refine Fails.bind (fails_take (.inl rfl)) (gains_take) fun _ _ _ => ?_
        refine Fails.bind ?_ (gather_gains (walk_gains rest) items [])
          fun _ _ _ => fails_pure
        have hgather := gather_fails (fun item => (walk_gains rest item).imp fun _ _ h => h.1) ih
          items []
        intro left error left' herror
        rcases hgather _ _ _ herror with hover | ⟨hnothing, hnothere⟩
        · exact .inl hover
        · refine .inr ⟨hnothing, ?_⟩
          rintro ⟨found, ⟨-, results, hresults, -⟩ | ⟨n, next, hindex, -⟩⟩
          · exact hnothere ⟨results, hresults⟩
          · exact star_ne_decimal hindex
      · rename_i hplain
        split
        · rename_i next hnext
          obtain ⟨n, hindex, hitem⟩ := Option.bind_eq_some_iff.1 hnext
          intro left error left' herror
          rcases ih next _ _ _ herror with hover | ⟨hnothing, hnothere⟩
          · exact .inl hover
          · refine .inr ⟨hnothing, ?_⟩
            rintro ⟨found, ⟨hstar, -⟩ | ⟨m, other, hother, hin, hfound⟩⟩
            · exact hplain hstar
            · obtain rfl := Option.some.inj ((index_eq_some.2 hother).symm.trans hindex)
              obtain rfl := Option.some.inj (hin.symm.trans hitem)
              exact hnothere ⟨found, hfound⟩
        · rename_i hnext
          refine hnone ?_
          rintro ⟨found, ⟨hstar, -⟩ | ⟨n, next, hindex, hitem, -⟩⟩
          · exact hplain hstar
          · rw [index_eq_some.2 hindex, Option.bind_some, hitem] at hnext
            cases hnext
    | obj fields =>
      rw [walk]
      split
      · rename_i next hnext
        intro left error left' herror
        rcases ih next _ _ _ herror with hover | ⟨hnothing, hnothere⟩
        · exact .inl hover
        · refine .inr ⟨hnothing, ?_⟩
          rintro ⟨found, other, hother, hfound⟩
          obtain rfl := Option.some.inj (hother.symm.trans hnext)
          exact hnothere ⟨found, hfound⟩
      · rename_i hnext
        refine hnone ?_
        rintro ⟨found, next, hlookup, -⟩
        rw [hnext] at hlookup
        cases hlookup
    | _ =>
      refine hnone ?_
      rintro ⟨found, hfound⟩
      exact hfound

theorem gather_frugal {walked : Json → Budgeted MethodError Json}
    (h : ∀ item, Frugal (walked item)) (items out : List Json) :
    Frugal (gather walked items out) := by
  induction items generalizing out with
  | nil => exact frugal_pure
  | cons item items ih =>
    rw [gather]
    exact (h item).bind fun found => ih _

theorem walk_frugal (tokens : List Text) (value : Json) :
    Frugal (walk NODE_WEIGHT tokens value) := by
  induction tokens generalizing value with
  | nil => exact (charge_frugal value).bind fun _ => frugal_pure
  | cons token rest ih =>
    cases value with
    | arr items =>
      rw [walk]
      split
      · exact frugal_take.bind fun _ => (gather_frugal ih items []).bind fun _ => frugal_pure
      · split
        · exact ih _
        · exact frugal_fail
    | obj fields =>
      rw [walk]
      split
      · exact ih _
      · exact frugal_fail
    | _ => exact frugal_fail

/-! ## The pointer -/

theorem charge_obj (fields : Fields) :
    charge NODE_WEIGHT (.obj fields) = chargeObject NODE_WEIGHT fields := by
  rw [charge, chargeObject]

/-- A path that opens with a slash is read by its tokens. -/
theorem pointer_slash {path : String} (hpath : path.toList = '/' :: text) :
    (∃ names, path.toList = written names ∧
      pointer NODE_WEIGHT response path = walk NODE_WEIGHT names (.obj response)) ∨
    (¬ ∃ names, path.toList = written names) ∧
      pointer NODE_WEIGHT response path = fail NOTHING_THERE := by
  have htokens : pointer NODE_WEIGHT response path =
      match (text.splitOn '/').mapM unescaped with
      | some (first :: rest) =>
        match lookup response (String.ofList first) with
        | some value => walk NODE_WEIGHT rest value
        | none => fail NOTHING_THERE
      | _ => fail NOTHING_THERE := by
    rw [pointer, hpath]
    rfl
  rw [hpath, htokens]
  cases hnames : (text.splitOn '/').mapM unescaped with
  | none =>
    refine .inr ⟨?_, rfl⟩
    rintro ⟨names, hwritten⟩
    have hne : names ≠ [] := by
      rintro rfl
      cases hwritten
    rw [tokens_eq_some.2 ⟨hne, hwritten⟩] at hnames
    cases hnames
  | some names =>
    obtain ⟨hne, hwritten⟩ := tokens_eq_some.1 hnames
    cases names with
    | nil => exact absurd rfl hne
    | cons first rest =>
      refine .inl ⟨first :: rest, hwritten, ?_⟩
      rw [walk]

/-- How a path is read: by its names, the root by none, and any other at nothing. -/
theorem pointer_eq (NODE_WEIGHT : Nat) (response : Fields) (path : String) :
    (∃ names, path.toList = written names ∧
      pointer NODE_WEIGHT response path = walk NODE_WEIGHT names (.obj response)) ∨
    (¬ ∃ names, path.toList = written names) ∧
      pointer NODE_WEIGHT response path = fail NOTHING_THERE := by
  cases hpath : path.toList with
  | nil =>
    refine .inl ⟨[], rfl, ?_⟩
    rw [pointer, hpath, walk, charge_obj]
  | cons c text =>
    by_cases hslash : c = '/'
    · subst hslash
      rw [← hpath]
      exact pointer_slash hpath
    · refine .inr ⟨?_, ?_⟩
      · rintro ⟨names, hwritten⟩
        cases names with
        | nil => cases hwritten
        | cons name names => exact hslash (List.cons.inj hwritten).1
      · rw [pointer, hpath]
        split
        · rename_i hnil
          cases hnil
        · rename_i hcons
          exact absurd (List.cons.inj hcons).1 hslash
        · rfl

/-- A path writes one list of names. -/
theorem written_injective {others : List Text} (h : written names = written others) :
    names = others := by
  by_cases hne : names = []
  · subst hne
    cases others with
    | nil => rfl
    | cons name others => cases h
  · by_cases hothers : others = []
    · subst hothers
      cases names with
      | nil => rfl
      | cons name names => cases h
    · have hfirst := tokens_eq_some.2 ⟨hne, (written_eq_intercalate hne).symm⟩
      rw [written_eq_intercalate hne] at h
      have hsecond := tokens_eq_some.2 ⟨hothers, h⟩
      exact Option.some.inj (hfirst.symm.trans hsecond)

/-- **A pointer that succeeds answers what it points at, and takes its size.** -/
theorem pointer_gains (response : Fields) (path : String) :
    Gains (pointer NODE_WEIGHT response path) fun found taken =>
      PointsAt response path found ∧ weight NODE_WEIGHT found ≤ taken := by
  rcases pointer_eq NODE_WEIGHT response path with ⟨names, hwritten, heq⟩ | ⟨-, heq⟩
  · rw [heq]
    exact (walk_gains names _).imp fun found _ hfound => ⟨⟨names, hwritten, hfound.1⟩, hfound.2⟩
  · rw [heq]
    exact gains_fail

/-- **A pointer fails where nothing is there, or for the budget.** -/
theorem pointer_fails (response : Fields) (path : String) :
    Fails (pointer NODE_WEIGHT response path) (Failing (∃ found, PointsAt response path found)) := by
  rcases pointer_eq NODE_WEIGHT response path with
    ⟨names, hwritten, heq⟩ | ⟨hnone, heq⟩
  · rw [heq]
    intro left error rest herror
    rcases walk_fails names _ _ _ _ herror with hover | ⟨hnothing, hnothere⟩
    · exact .inl hover
    · refine .inr ⟨hnothing, ?_⟩
      rintro ⟨found, others, hothers, hfound⟩
      obtain rfl := written_injective (hwritten.symm.trans hothers)
      exact hnothere ⟨found, hfound⟩
  · rw [heq]
    refine fails_fail (.inr ⟨rfl, ?_⟩)
    rintro ⟨found, names, hwritten, -⟩
    exact hnone ⟨names, hwritten⟩

theorem pointer_frugal (response : Fields) (path : String) :
    Frugal (pointer NODE_WEIGHT response path) := by
  rcases pointer_eq NODE_WEIGHT response path with ⟨names, -, heq⟩ | ⟨-, heq⟩
  · rw [heq]
    exact walk_frugal names _
  · rw [heq]
    exact frugal_fail

/-- A pointer points at one value. -/
theorem Points.unique {others : Json} (h : Points tokens value result)
    (h' : Points tokens value others) : result = others := by
  induction tokens generalizing value result others with
  | nil =>
    cases h
    cases h'
    rfl
  | cons token rest ih =>
    cases value with
    | arr items =>
      rcases h with ⟨hstar, results, hresults, rfl⟩ | ⟨n, next, rfl, hitem, hnext⟩
      · rcases h' with ⟨-, results', hresults', rfl⟩ | ⟨n, next, hindex, -⟩
        · have hsame : results = results' := by
            clear hstar
            induction hresults generalizing results' with
            | nil =>
              cases hresults'
              rfl
            | cons hfirst hrest ihrest =>
              cases hresults' with
              | cons hfirst' hrest' => rw [ih hfirst hfirst', ihrest _ hrest']
          rw [hsame]
        · exact absurd (hstar.symm.trans hindex) star_ne_decimal
      · rcases h' with ⟨hstar, -⟩ | ⟨m, other, hindex, hother, hfound⟩
        · exact absurd hstar.symm star_ne_decimal
        · have hsame := index_eq_some.2 hindex
          rw [index_eq_some.2 rfl] at hsame
          obtain rfl := Option.some.inj hsame
          obtain rfl := Option.some.inj (hitem.symm.trans hother)
          exact ih hnext hfound
    | obj fields =>
      obtain ⟨next, hnext, hfound⟩ := h
      obtain ⟨other, hother, hfound'⟩ := h'
      obtain rfl := Option.some.inj (hnext.symm.trans hother)
      exact ih hfound hfound'
    | _ => exact h.elim

end

end Huliho.References
