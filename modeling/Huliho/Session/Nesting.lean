import Huliho.Session.Guard

/-!
# The levels of a response line

A response line as the grammar builds it: after its star a word and items, each an atom, a quoted string,
a literal or a list of items (`ResponseLine`). Read within the byte bounds, a line whose word opens no
free text trips the lexer for nesting exactly when its lists go deeper than the limit, and leaves it ready
for the next line otherwise (**`feed_line`**): a part of a line takes the lexer from one mode to the next
and counts its levels and nothing else (`Reads`). On a line of free text no string is told apart, and the
parentheses of a quoted string count (**`quoted_levels_count`**).
-/

namespace Huliho.Session

/-! ## The grammar of a line -/

/-- What stands in no atom: what opens or ends a list, a string, a blank or a line. -/
def TURNS : List UInt8 := [byteOf '(', byteOf ')', byteOf '{', byteOf '"', byteOf ' ', CR, LF]

def isAtomByte (byte : UInt8) : Bool := !TURNS.contains byte

structure Atom where
  bytes : List UInt8
  ne : bytes ≠ []
  plain : bytes.all isAtomByte

/-- What ends a quoted string, an escape or a line. -/
def QUOTED_TURNS : List UInt8 := [byteOf '"', byteOf '\\', CR, LF]

/-- A character of a quoted string: a byte that stands for itself, or a quoted special behind its
backslash. -/
inductive QuotedChar
  | plain (byte : UInt8) (h : !QUOTED_TURNS.contains byte)
  | escaped (byte : UInt8) (h : byte = byteOf '\\' ∨ byte = byteOf '"')

def QuotedChar.bytes : QuotedChar → List UInt8
  | plain byte _ => [byte]
  | escaped byte _ => [byteOf '\\', byte]

/-- The number some digits write behind those of a number. -/
def digitsValue (ahead : Nat) (digits : List UInt8) : Nat :=
  digits.foldl (fun value byte => value * 10 + (byte - byteOf '0').toNat) ahead

/-- A literal: the digits of its size and its body, of whatever bytes. -/
structure SizedLiteral where
  digits : List UInt8
  body : List UInt8
  ne : digits ≠ []
  numeric : digits.all isDigit
  size : digitsValue 0 digits = body.length

mutual

/-- An item of a line. -/
inductive ResponseItem
  | atom (atom : Atom)
  | quoted (chars : List QuotedChar)
  | literal (literal : SizedLiteral)
  | list (items : ResponseItems)

/-- Items one after another, each behind a blank or not. -/
inductive ResponseItems
  | nil
  | cons (blank : Bool) (item : ResponseItem) (items : ResponseItems)

end

mutual

def ResponseItem.bytes : ResponseItem → List UInt8
  | .atom atom => atom.bytes
  | .quoted chars => [byteOf '"'] ++ chars.flatMap QuotedChar.bytes ++ [byteOf '"']
  | .literal literal => [byteOf '{'] ++ literal.digits ++ [byteOf '}', CR, LF] ++ literal.body
  | .list items => [byteOf '('] ++ items.bytes ++ [byteOf ')']

def ResponseItems.bytes : ResponseItems → List UInt8
  | .nil => []
  | .cons blank item items => (if blank then [byteOf ' '] else []) ++ item.bytes ++ items.bytes

end

mutual

/-- The levels of an item: those of its lists, and of nothing in a string. -/
def ResponseItem.levels : ResponseItem → Nat
  | .list items => items.levels + 1
  | .atom _ | .quoted _ | .literal _ => 0

def ResponseItems.levels : ResponseItems → Nat
  | .nil => 0
  | .cons _ item items => max item.levels items.levels

end

mutual

/-- The bytes in the bodies of literals. -/
def ResponseItem.literals : ResponseItem → Nat
  | .literal literal => literal.body.length
  | .list items => items.literals
  | .atom _ | .quoted _ => 0

def ResponseItems.literals : ResponseItems → Nat
  | .nil => 0
  | .cons _ item items => item.literals + items.literals

end

/-- An untagged line: a word, and behind a blank its items. -/
structure ResponseLine where
  word : Atom
  items : Option ResponseItems

namespace ResponseLine

/-- The items behind the word and its blank. -/
def tail (line : ResponseLine) : List UInt8 :=
  line.items.elim [] fun items => [byteOf ' '] ++ items.bytes

def bytes (line : ResponseLine) : List UInt8 :=
  [byteOf '*', byteOf ' '] ++ line.word.bytes ++ line.tail ++ [CR, LF]

/-- How deep the lists of a line go. -/
def levels (line : ResponseLine) : Nat := line.items.elim 0 ResponseItems.levels

/-- The bytes of a line in its literals. -/
def literals (line : ResponseLine) : Nat := line.items.elim 0 ResponseItems.literals

/-- A line within the byte bounds. -/
def Fits (line : ResponseLine) : Prop :=
  line.bytes.length ≤ MAX_RESPONSE_BYTES ∧
    line.bytes.length - line.literals ≤ MAX_STRUCTURED_BYTES

/-- A line of data: its word does not start like one that opens free text. -/
def Data (line : ResponseLine) : Prop :=
  STATUS_WORDS.all fun status => !status.isPrefixOf (line.word.bytes.map toAsciiUppercase)

end ResponseLine

/-! ## A part of a line -/

/-- The lexer on a data line. -/
def Lexer.on (mode : Mode) (depth bytes structured : Nat) : Lexer :=
  ⟨.data mode, depth, bytes, structured, false, .absent⟩

/-- What reading a part of a data line does within the bounds, from one mode to the next: it counts every
byte, those outside its literals once more, and stands as deep as before, unless a level of it passes the
limit. -/
structure Reads (mode mode' : Mode) (text : List UInt8) (literals levels : Nat) : Prop where
  le : literals ≤ text.length
  fits : ∀ depth bytes structured, depth + levels ≤ MAX_NESTING →
    bytes + text.length ≤ MAX_RESPONSE_BYTES →
    structured + (text.length - literals) ≤ MAX_STRUCTURED_BYTES →
    (Lexer.on mode depth bytes structured).feed text =
      ⟨.on mode' depth (bytes + text.length) (structured + (text.length - literals)), none⟩
  trips : ∀ depth bytes structured, depth ≤ MAX_NESTING → MAX_NESTING < depth + levels →
    bytes + text.length ≤ MAX_RESPONSE_BYTES →
    structured + (text.length - literals) ≤ MAX_STRUCTURED_BYTES →
    ((Lexer.on mode depth bytes structured).feed text).stopped = some .nesting

section

variable {lexer lexer' : Lexer} {mode mode' mode'' : Mode} {a b text : List UInt8} {next : UInt8}
  {la lb ka kb literals levels depth bytes structured : Nat}

/-- What a clean part leaves is what the rest is read from. -/
theorem feed_after (h : lexer.feed a = ⟨lexer', none⟩) :
    lexer.feed (a ++ b) |>.Same (lexer'.feed b) := by
  have hsame := Lexer.feed_append lexer a b
  rwa [h] at hsame

theorem same_clean {x : Lexed} (h : x.Same ⟨lexer, none⟩) : x = ⟨lexer, none⟩ := by
  obtain ⟨state, stopped⟩ := x
  obtain ⟨hstopped, hstate⟩ := h
  obtain rfl : stopped = none := hstopped
  obtain rfl : state = lexer := hstate rfl
  rfl

theorem Reads.nil (mode : Mode) : Reads mode mode [] 0 0 where
  le := Nat.le_refl 0
  fits _ _ _ _ _ _ := Lexer.feed_nil _
  trips _ _ _ hdepth hover _ _ := absurd hover (Nat.not_lt.2 hdepth)

/-- **Two parts one after the other.** -/
theorem Reads.append (ha : Reads mode mode' a la ka) (hb : Reads mode' mode'' b lb kb) :
    Reads mode mode'' (a ++ b) (la + lb) (max ka kb) := by
  have hla := ha.le
  have hlb := hb.le
  have houtside : (a ++ b).length - (la + lb) = (a.length - la) + (b.length - lb) := by
    rw [List.length_append]
    omega
  constructor
  · rw [List.length_append]
    omega
  · intro depth bytes structured hdepth hbytes hstructured
    rw [houtside] at hstructured ⊢
    rw [List.length_append] at hbytes ⊢
    have hfirst := ha.fits depth bytes structured (by omega) (by omega) (by omega)
    have hnext := hb.fits depth (bytes + a.length) (structured + (a.length - la)) (by omega)
      (by omega) (by omega)
    have hsame := feed_after (b := b) hfirst
    rw [hnext] at hsame
    rw [same_clean hsame, Nat.add_assoc, Nat.add_assoc]
  · intro depth bytes structured hdepth hover hbytes hstructured
    rw [houtside] at hstructured
    rw [List.length_append] at hbytes
    by_cases hka : depth + ka ≤ MAX_NESTING
    · have hfirst := ha.fits depth bytes structured hka (by omega) (by omega)
      have hnext := hb.trips depth (bytes + a.length) (structured + (a.length - la)) hdepth
        (by omega) (by omega) (by omega)
      rw [(feed_after (b := b) hfirst).stopped, hnext]
    · have hfirst := ha.trips depth bytes structured hdepth (by omega) (by omega) (by omega)
      rw [(Lexer.feed_append _ a b).stopped, Fed.andThen_stopped hfirst, hfirst]

/-- A byte outside a literal is counted and stepped over. -/
theorem feed_one (h : lexer.literalLeft = none) (hbytes : lexer.bytes + 1 ≤ MAX_RESPONSE_BYTES)
    (hstructured : lexer.structured + 1 ≤ MAX_STRUCTURED_BYTES) :
    lexer.feed [next] = ({ lexer with
      bytes := lexer.bytes + 1, structured := lexer.structured + 1 } : Lexer).step next := by
  have hcount : lexer.countStructured = ⟨{ lexer with
      bytes := lexer.bytes + 1, structured := lexer.structured + 1 }, none⟩ := by
    have hinside : ¬ MAX_STRUCTURED_BYTES < lexer.structured + 1 := Nat.not_lt.2 hstructured
    have hwithin : ¬ MAX_RESPONSE_BYTES < lexer.bytes + 1 := Nat.not_lt.2 hbytes
    exact (if_neg hinside).trans (if_neg hwithin)
  rw [Lexer.feed_byte h, Lexer.byte, hcount]
  generalize hcounted : ({ lexer with
    bytes := lexer.bytes + 1, structured := lexer.structured + 1 } : Lexer) = counted
  change (counted.step next).andThen _ = _
  cases hstep : (counted.step next).stopped with
  | none =>
    rw [Fed.andThen_clean hstep, Lexer.feed_nil]
    exact (same_clean ⟨hstep, fun _ => rfl⟩).symm
  | some e => exact Fed.andThen_stopped hstep

/-- A byte that opens no level. -/
theorem Reads.byte (hmode : ∀ left, mode ≠ .literal left)
    (hstep : ∀ depth bytes structured, (Lexer.on mode depth bytes structured).step next =
      ⟨.on mode' depth bytes structured, none⟩) : Reads mode mode' [next] 0 0 where
  le := Nat.zero_le _
  fits depth bytes structured _ hbytes hstructured := by
    have hleft : (Lexer.on mode depth bytes structured).literalLeft = none := by
      cases mode <;> first | rfl | exact absurd rfl (hmode _)
    rw [feed_one hleft hbytes hstructured]
    exact hstep _ _ _
  trips _ _ _ hdepth hover _ _ := absurd hover (Nat.not_lt.2 hdepth)

/-! ## Strings -/

theorem ne_of_not_contains {turns : List UInt8} {turn : UInt8} (h : !turns.contains next)
    (hturn : turn ∈ turns) : next ≠ turn := by
  rintro rfl
  rw [List.contains_iff_mem.2 hturn] at h
  cases h

/-- A byte that ends no line is read over. -/
theorem endOfLine_over (h : lexer.cr = false) (hlf : next ≠ LF) (hcr : next ≠ CR) :
    lexer.endOfLine next = lexer := by
  obtain ⟨line, depth, bytes, structured, cr, marker⟩ := lexer
  obtain rfl : cr = false := h
  rw [Lexer.endOfLine, if_neg (fun hends => hlf hends.1), decide_eq_false hcr]

theorem step_plain (h : isAtomByte next) : (Lexer.on .plain depth bytes structured).step next =
    ⟨.on .plain depth bytes structured, none⟩ := by
  have hne : ∀ turn ∈ TURNS, next ≠ turn := fun _ hturn => ne_of_not_contains h hturn
  change (Lexer.on .plain depth bytes structured).plain next = _
  rw [Lexer.plain, if_neg (hne _ (by decide)), if_neg (hne _ (by decide)), Lexer.text,
    if_neg (hne _ (by decide)), if_neg (hne _ (by decide)),
    endOfLine_over rfl (hne _ (by decide)) (hne _ (by decide))]

theorem reads_plain (h : text.all isAtomByte) : Reads .plain .plain text 0 0 := by
  induction text with
  | nil => exact .nil _
  | cons next text ih =>
    obtain ⟨hnext, htext⟩ := Bool.and_eq_true_iff.1 h
    exact (Reads.byte (by simp) fun _ _ _ => step_plain hnext).append (ih htext)

/-- A blank opens and ends nothing. -/
theorem reads_blank : Reads .plain .plain [byteOf ' '] 0 0 :=
  .byte (by simp) fun _ _ _ => rfl

theorem reads_quotedChar (c : QuotedChar) : Reads .quoted .quoted c.bytes 0 0 := by
  cases c with
  | plain next h =>
    have hne : ∀ turn ∈ QUOTED_TURNS, next ≠ turn := fun _ hturn => ne_of_not_contains h hturn
    refine .byte (by simp) fun depth bytes structured => ?_
    change (Lexer.on .quoted depth bytes structured).quoted next = _
    rw [Lexer.quoted, if_neg (hne _ (by decide)), if_neg (hne _ (by decide)),
      endOfLine_over rfl (hne _ (by decide)) (hne _ (by decide))]
  | escaped next h =>
    have hslash : Reads .quoted .escaped [byteOf '\\'] 0 0 := .byte (by simp) fun _ _ _ => rfl
    have hnext : Reads .escaped .quoted [next] 0 0 := by
      refine .byte (by simp) fun _ _ _ => ?_
      rcases h with rfl | rfl <;> rfl
    exact hslash.append hnext

/-- **A quoted string is no level**, whatever it holds. -/
theorem reads_quoted (chars : List QuotedChar) :
    Reads .plain .plain ([byteOf '"'] ++ chars.flatMap QuotedChar.bytes ++ [byteOf '"']) 0 0 := by
  have hopen : Reads .plain .quoted [byteOf '"'] 0 0 := .byte (by simp) fun _ _ _ => rfl
  have hclose : Reads .quoted .plain [byteOf '"'] 0 0 := .byte (by simp) fun _ _ _ => rfl
  have hchars : Reads .quoted .quoted (chars.flatMap QuotedChar.bytes) 0 0 := by
    induction chars with
    | nil => exact .nil _
    | cons c chars ih => exact (reads_quotedChar c).append ih
  exact (hopen.append hchars).append hclose

/-! ## Literals -/

theorem digitsValue_cons (ahead : Nat) (digit : UInt8) (digits : List UInt8) :
    digitsValue ahead (digit :: digits) =
      digitsValue (ahead * 10 + (digit - byteOf '0').toNat) digits := rfl

theorem le_digitsValue (ahead : Nat) (digits : List UInt8) : ahead ≤ digitsValue ahead digits := by
  induction digits generalizing ahead with
  | nil => exact Nat.le_refl _
  | cons digit digits ih =>
    rw [digitsValue_cons]
    exact Nat.le_trans (by omega) (ih _)

/-- A digit of a size within a `u32`. -/
theorem reads_digit {digit : UInt8} {ahead : Option Nat} (hdigit : isDigit digit)
    (hsmall : ahead.getD 0 * 10 + (digit - byteOf '0').toNat < 4294967296) :
    Reads (.size ahead) (.size (some (ahead.getD 0 * 10 + (digit - byteOf '0').toNat))) [digit]
      0 0 := by
  have hgrown : grown ahead digit = some (ahead.getD 0 * 10 + (digit - byteOf '0').toNat) := by
    have htens : ¬ 4294967296 ≤ ahead.getD 0 * 10 := by omega
    have hsize : ¬ 4294967296 ≤ ahead.getD 0 * 10 + (digit - byteOf '0').toNat := by omega
    exact (if_neg htens).trans (if_neg hsize)
  refine .byte (by simp) fun depth bytes structured => ?_
  change (if isDigit digit then (Lexer.on (.size ahead) depth bytes structured).become
    ((grown ahead digit).elim .plain fun size => .size (some size)) else _) = _
  rw [if_pos hdigit, hgrown]
  rfl

/-- The digits of a size behind those ahead of them. -/
theorem reads_digits {digits : List UInt8} {value : Nat} (hdigits : digits.all isDigit)
    (hsmall : digitsValue value digits < 4294967296) :
    Reads (.size (some value)) (.size (some (digitsValue value digits))) digits 0 0 := by
  induction digits generalizing value with
  | nil => exact .nil _
  | cons digit digits ih =>
    obtain ⟨hdigit, hrest⟩ := Bool.and_eq_true_iff.1 hdigits
    rw [digitsValue_cons] at hsmall ⊢
    have hle := le_digitsValue (value * 10 + (digit - byteOf '0').toNat) digits
    have hfirst : Reads (.size (some value))
        (.size (some (value * 10 + (digit - byteOf '0').toNat))) [digit] 0 0 :=
      reads_digit hdigit (Nat.lt_of_le_of_lt hle hsmall)
    exact hfirst.append (ih hrest hsmall)

/-- The body of a literal is skipped, whatever its bytes. -/
theorem reads_body {body : List UInt8} (hne : body ≠ []) :
    Reads (.literal body.length) .plain body body.length 0 where
  le := Nat.le_refl _
  fits depth bytes structured _ hbytes hstructured := by
    have hcount : (Lexer.on (.literal body.length) depth bytes structured).count body.length =
        ⟨.on (.literal body.length) depth (bytes + body.length) structured, none⟩ :=
      if_neg (Nat.not_lt.2 hbytes)
    have hskipped : (Lexer.on (.literal body.length) depth (bytes + body.length) structured).skipped
        body.length body.length = .on .plain depth (bytes + body.length) structured := by
      rw [Lexer.skipped, Nat.sub_self, if_pos rfl]
      rfl
    rw [Lexer.feed_literal rfl hne, Nat.min_self, hcount, Nat.sub_self, Nat.add_zero]
    change ((Lexer.on (.literal body.length) depth (bytes + body.length) structured).skipped
      body.length body.length).feed _ = _
    rw [hskipped, List.drop_length, Lexer.feed_nil]
  trips _ _ _ hdepth hover _ _ := absurd hover (Nat.not_lt.2 hdepth)

/-- **A literal is no level**, whatever its body holds. -/
theorem reads_literal (literal : SizedLiteral) (hsmall : literal.body.length < 4294967296) :
    Reads .plain .plain
      ([byteOf '{'] ++ literal.digits ++ [byteOf '}', CR, LF] ++ literal.body)
      literal.body.length 0 := by
  obtain ⟨digits, body, hne, hnumeric, hsize⟩ := literal
  have hopen : Reads .plain (.size none) [byteOf '{'] 0 0 := .byte (by simp) fun _ _ _ => rfl
  have hdigits : Reads (.size none) (.size (some body.length)) digits 0 0 := by
    obtain ⟨digit, digits, rfl⟩ := List.exists_cons_of_ne_nil hne
    obtain ⟨hdigit, hrest⟩ := Bool.and_eq_true_iff.1 hnumeric
    rw [digitsValue_cons] at hsize
    rw [← hsize] at hsmall ⊢
    have hle := le_digitsValue (0 * 10 + (digit - byteOf '0').toNat) digits
    have hfirst : Reads (.size none) (.size (some (0 * 10 + (digit - byteOf '0').toNat)))
        [digit] 0 0 :=
      reads_digit hdigit (Nat.lt_of_le_of_lt hle hsmall)
    exact hfirst.append (reads_digits hrest hsmall)
  have hbrace : Reads (.size (some body.length)) (.sizeCr body.length) [byteOf '}'] 0 0 :=
    .byte (by simp) fun _ _ _ => rfl
  have hcr : Reads (.sizeCr body.length) (.sizeLf body.length) [CR] 0 0 :=
    .byte (by simp) fun _ _ _ => rfl
  have hhead := ((hopen.append hdigits).append hbrace).append hcr
  by_cases hbody : body = []
  · subst hbody
    have hlf : Reads (.sizeLf 0) .plain [LF] 0 0 := .byte (by simp) fun _ _ _ => rfl
    simpa using hhead.append hlf
  · have hlength : body.length ≠ 0 := mt List.length_eq_zero_iff.1 hbody
    have hlf : Reads (.sizeLf body.length) (.literal body.length) [LF] 0 0 := by
      refine .byte (by simp) fun depth bytes structured => ?_
      change (Lexer.on (.sizeLf body.length) depth bytes structured).become
        (if body.length = 0 then .plain else .literal body.length) = _
      rw [if_neg hlength]
      rfl
    simpa using (hhead.append hlf).append (reads_body hbody)

/-! ## Lists -/

/-- An opening parenthesis goes a level down, or trips the lexer. -/
theorem feed_open (hbytes : bytes + 1 ≤ MAX_RESPONSE_BYTES)
    (hstructured : structured + 1 ≤ MAX_STRUCTURED_BYTES) :
    (depth + 1 ≤ MAX_NESTING → (Lexer.on .plain depth bytes structured).feed [byteOf '('] =
      ⟨.on .plain (depth + 1) (bytes + 1) (structured + 1), none⟩) ∧
    (MAX_NESTING < depth + 1 →
      ((Lexer.on .plain depth bytes structured).feed [byteOf '(']).stopped = some .nesting) := by
  rw [feed_one rfl hbytes hstructured]
  exact ⟨fun hdepth => if_neg (Nat.not_lt.2 hdepth), fun hdeep => congrArg Fed.stopped (if_pos hdeep)⟩

/-- A closing one goes a level up. -/
theorem feed_close (hbytes : bytes + 1 ≤ MAX_RESPONSE_BYTES)
    (hstructured : structured + 1 ≤ MAX_STRUCTURED_BYTES) :
    (Lexer.on .plain (depth + 1) bytes structured).feed [byteOf ')'] =
      ⟨.on .plain depth (bytes + 1) (structured + 1), none⟩ := by
  rw [feed_one rfl hbytes hstructured]
  rfl

/-- **A list is a level around those of its items.** -/
theorem reads_list (h : Reads .plain .plain text literals levels) :
    Reads .plain .plain ([byteOf '('] ++ text ++ [byteOf ')']) literals (levels + 1) := by
  have hle := h.le
  have hlength : ([byteOf '('] ++ text ++ [byteOf ')']).length = text.length + 2 := by simp
  constructor
  · rw [hlength]
    omega
  · intro depth bytes structured hdepth hbytes hstructured
    rw [hlength] at hbytes hstructured ⊢
    have houtside : text.length + 2 - literals = text.length - literals + 2 := by omega
    have hopen : (Lexer.on .plain depth bytes structured).feed [byteOf '('] =
        ⟨.on .plain (depth + 1) (bytes + 1) (structured + 1), none⟩ :=
      (feed_open (by omega) (by omega)).1 (by omega)
    have htext := feed_after (b := text) hopen
    rw [h.fits (depth + 1) (bytes + 1) (structured + 1) (by omega) (by omega) (by omega)] at htext
    have hclose := feed_after (b := [byteOf ')']) (same_clean htext)
    rw [feed_close (by omega) (by omega)] at hclose
    rw [same_clean hclose, houtside, Nat.add_right_comm bytes, Nat.add_right_comm structured]
    rfl
  · intro depth bytes structured hdepth hover hbytes hstructured
    rw [hlength] at hbytes hstructured
    rw [List.append_assoc]
    obtain ⟨hclean, htrips⟩ : (depth + 1 ≤ MAX_NESTING →
          (Lexer.on .plain depth bytes structured).feed [byteOf '('] =
            ⟨.on .plain (depth + 1) (bytes + 1) (structured + 1), none⟩) ∧ _ :=
      feed_open (by omega) (by omega)
    by_cases hdown : depth + 1 ≤ MAX_NESTING
    · have htext := h.trips (depth + 1) (bytes + 1) (structured + 1) hdown (by omega) (by omega)
        (by omega)
      rw [(feed_after (b := text ++ [byteOf ')']) (hclean hdown)).stopped,
        (Lexer.feed_append _ text _).stopped, Fed.andThen_stopped htext, htext]
    · have hparen := htrips (Nat.lt_of_not_le hdown)
      rw [(Lexer.feed_append _ _ _).stopped, Fed.andThen_stopped hparen, hparen]

/-! ## Items -/

mutual

/-- **An item counts its levels**, where its literals fit a response. -/
theorem reads_item : (item : ResponseItem) → item.bytes.length ≤ MAX_RESPONSE_BYTES →
    Reads .plain .plain item.bytes item.literals item.levels
  | .atom atom, _ => reads_plain atom.plain
  | .quoted chars, _ => reads_quoted chars
  | .literal literal, hfits => by
    have hsmall : literal.body.length < 4294967296 := by
      rw [ResponseItem.bytes, List.length_append] at hfits
      have hbound : MAX_RESPONSE_BYTES < 4294967296 := by decide
      omega
    exact reads_literal literal hsmall
  | .list items, hfits => by
    rw [ResponseItem.bytes, List.length_append, List.length_append] at hfits
    exact reads_list (reads_items items (by omega))

theorem reads_items : (items : ResponseItems) → items.bytes.length ≤ MAX_RESPONSE_BYTES →
    Reads .plain .plain items.bytes items.literals items.levels
  | .nil, _ => .nil _
  | .cons blank item items, hfits => by
    rw [ResponseItems.bytes, List.length_append, List.length_append] at hfits
    have hblank : Reads .plain .plain (if blank then [byteOf ' '] else []) 0 0 := by
      cases blank with
      | true => exact reads_blank
      | false => exact .nil _
    have hitem := reads_item item (by omega)
    have hitems := reads_items items (by omega)
    simpa [ResponseItems.bytes, ResponseItems.literals, ResponseItems.levels] using
      (hblank.append hitem).append hitems

end

/-! ## The word -/

/-- The lexer ahead of a data line's items. -/
def Lexer.ahead (line : Line) (bytes structured : Nat) : Lexer :=
  ⟨line, 0, bytes, structured, false, .absent⟩

theorem Lexer.on_zero (mode : Mode) (bytes structured : Nat) :
    Lexer.on mode 0 bytes structured = .ahead (.data mode) bytes structured := rfl

/-- No status word starts like some letters. -/
def Unlike (letters : List UInt8) : Prop :=
  STATUS_WORDS.all fun status => !status.isPrefixOf letters

theorem unlike_iff {letters : List UInt8} :
    Unlike letters ↔ ¬ STATUS_WORDS.any fun status => status.isPrefixOf letters := by
  rw [Unlike, List.all_eq_not_any_not]
  simp

/-- A word that starts like none stays so, whatever is cut off it. -/
theorem unlike_of_append {letters more : List UInt8} (h : Unlike (letters ++ more)) :
    Unlike letters := by
  rw [Unlike, List.all_eq_true] at h ⊢
  intro status hstatus
  have hwhole := h status hstatus
  rw [Bool.not_eq_true', ← Bool.not_eq_true, List.isPrefixOf_iff_prefix] at hwhole ⊢
  exact fun hlead => hwhole (hlead.trans (List.prefix_append letters more))

/-- Outside a string a byte that turns nothing is read over. -/
theorem freeText_over {line : Line}
    (hne : ∀ turn ∈ [byteOf '(', byteOf ')', byteOf '{', CR, LF], next ≠ turn) :
    (Lexer.ahead line bytes structured).freeText next = ⟨.ahead line bytes structured, none⟩ := by
  have hmarker : Marker.absent.after next = .absent := if_neg (hne _ (by decide))
  have hfree : (Lexer.ahead line bytes structured).freeText next =
      (Lexer.ahead line bytes structured).text next := by
    simp only [Lexer.freeText, Lexer.ahead, hmarker, reduceCtorEq, if_false]
  rw [hfree, Lexer.text, if_neg (hne _ (by decide)), if_neg (hne _ (by decide)),
    endOfLine_over rfl (hne _ (by decide)) (hne _ (by decide))]

/-- A letter of the word: the word goes on, or fills and opens a line of data. -/
theorem feed_letter {letters : List UInt8} (hnext : isAtomByte next)
    (hunlike : Unlike (letters ++ [toAsciiUppercase next]))
    (hbytes : bytes + 1 ≤ MAX_RESPONSE_BYTES) (hstructured : structured + 1 ≤ MAX_STRUCTURED_BYTES) :
    (Lexer.ahead (.word letters) bytes structured).feed [next] =
      ⟨.ahead (if (letters ++ [toAsciiUppercase next]).length < WORD_BYTES then
        .word (letters ++ [toAsciiUppercase next]) else .data .plain) (bytes + 1) (structured + 1),
        none⟩ := by
  have hne : ∀ turn ∈ TURNS, next ≠ turn := fun _ hturn => ne_of_not_contains hnext hturn
  have hgoes : ¬ (next = byteOf ' ' ∨ next = CR) := by
    rintro (h | h)
    · exact hne _ (by decide) h
    · exact hne _ (by decide) h
  have hword : word letters next =
      if (letters ++ [toAsciiUppercase next]).length < WORD_BYTES then
        .word (letters ++ [toAsciiUppercase next]) else .data .plain := by
    simp only [word, hgoes, Bool.false_eq_true, if_false, not_false_eq_true, true_and,
      unlike_iff.1 hunlike]
  rw [feed_one rfl hbytes hstructured]
  change (Lexer.ahead (word letters next) (bytes + 1) (structured + 1)).freeText next = _
  rw [hword]
  have hfree : [byteOf '(', byteOf ')', byteOf '{', CR, LF] ⊆ TURNS := by simp [TURNS]
  exact freeText_over fun turn hturn => hne turn (hfree hturn)

/-- **The word is read to its end**, or filled and read on as data. -/
theorem feed_word {letters : List UInt8} (hplain : text.all isAtomByte)
    (hunlike : Unlike (letters ++ text.map toAsciiUppercase))
    (hbytes : bytes + text.length ≤ MAX_RESPONSE_BYTES)
    (hstructured : structured + text.length ≤ MAX_STRUCTURED_BYTES) :
    (Lexer.ahead (.word letters) bytes structured).feed text =
        ⟨.ahead (.word (letters ++ text.map toAsciiUppercase)) (bytes + text.length)
          (structured + text.length), none⟩ ∨
      (Lexer.ahead (.word letters) bytes structured).feed text =
        ⟨.ahead (.data .plain) (bytes + text.length) (structured + text.length), none⟩ := by
  induction text generalizing letters bytes structured with
  | nil =>
    left
    rw [Lexer.feed_nil, List.map_nil, List.append_nil]
    rfl
  | cons next text ih =>
    obtain ⟨hnext, htext⟩ := Bool.and_eq_true_iff.1 hplain
    rw [List.length_cons] at hbytes hstructured
    rw [List.map_cons, ← List.singleton_append, ← List.append_assoc] at hunlike
    have hroom : bytes + 1 ≤ MAX_RESPONSE_BYTES ∧ structured + 1 ≤ MAX_STRUCTURED_BYTES := by omega
    have hmore : bytes + 1 + text.length ≤ MAX_RESPONSE_BYTES ∧
        structured + 1 + text.length ≤ MAX_STRUCTURED_BYTES := by omega
    have hletter := feed_letter hnext (unlike_of_append hunlike) hroom.1 hroom.2
    have hlength : bytes + (text.length + 1) = bytes + 1 + text.length ∧
        structured + (text.length + 1) = structured + 1 + text.length := by omega
    have hrest := feed_after (b := text) hletter
    rw [← List.singleton_append, List.map_append, List.map_singleton, ← List.append_assoc,
      List.length_append, List.length_singleton, Nat.add_comm 1, hlength.1, hlength.2]
    split at hrest
    · rcases ih htext hunlike hmore.1 hmore.2 with hword | hdata
      · rw [hword] at hrest
        exact .inl (same_clean hrest)
      · rw [hdata] at hrest
        exact .inr (same_clean hrest)
    · -- The word is full: what follows is read as data.
      have hdata := (reads_plain htext).fits 0 (bytes + 1) (structured + 1) (Nat.zero_le _) hmore.1
        hmore.2
      rw [← Lexer.on_zero, hdata] at hrest
      exact .inr (same_clean hrest)

/-- A line that is one of data once its word ends. -/
def Line.Settles (line : Line) : Prop :=
  line = .data .plain ∨ ∃ letters, line = .word letters ∧ Unlike letters

/-- A blank or a line end behind the word opens a line of data. -/
theorem feed_wordEnd {line : Line} (hnext : next = byteOf ' ' ∨ next = CR)
    (hline : line.Settles)
    (hbytes : bytes + 1 ≤ MAX_RESPONSE_BYTES) (hstructured : structured + 1 ≤ MAX_STRUCTURED_BYTES) :
    (Lexer.ahead line bytes structured).feed [next] =
      ⟨{ Lexer.ahead (.data .plain) (bytes + 1) (structured + 1) with cr := next = CR }, none⟩ := by
  rcases hline with rfl | ⟨letters, rfl, hunlike⟩
  · rw [feed_one rfl hbytes hstructured]
    rcases hnext with rfl | rfl <;> rfl
  · have hword : word letters next = .data .plain := by
      simp only [word, hnext, not_true_eq_false, false_and, if_true, if_false, unlike_iff.1 hunlike,
        Bool.false_eq_true]
    rw [feed_one rfl hbytes hstructured]
    change (Lexer.ahead (word letters next) (bytes + 1) (structured + 1)).freeText next = _
    rw [hword]
    rcases hnext with rfl | rfl <;> rfl

/-- The line feed behind a carriage return ends the response. -/
theorem feed_lf (hbytes : bytes + 1 ≤ MAX_RESPONSE_BYTES)
    (hstructured : structured + 1 ≤ MAX_STRUCTURED_BYTES) :
    ({ Lexer.ahead (.data .plain) bytes structured with cr := true } : Lexer).feed [LF] =
      ⟨.start, none⟩ := by
  rw [feed_one rfl hbytes hstructured]
  rfl

/-! ## The line -/

/-- The star and its blank are read, and a word behind them. -/
theorem feed_head {word : Atom} (hunlike : Unlike (word.bytes.map toAsciiUppercase))
    (hbytes : 2 + word.bytes.length ≤ MAX_RESPONSE_BYTES)
    (hstructured : 2 + word.bytes.length ≤ MAX_STRUCTURED_BYTES) :
    ∃ line : Line, line.Settles ∧
      Lexer.start.feed ([byteOf '*', byteOf ' '] ++ word.bytes) =
        ⟨.ahead line (2 + word.bytes.length) (2 + word.bytes.length), none⟩ := by
  have hroom : 2 ≤ MAX_RESPONSE_BYTES ∧ 2 ≤ MAX_STRUCTURED_BYTES := by decide
  have hstar : Lexer.start.feed [byteOf '*'] = ⟨.ahead .star 1 1, none⟩ := by
    rw [feed_one rfl (Nat.le_trans (by decide) hroom.1) (Nat.le_trans (by decide) hroom.2)]
    rfl
  have hblank : (Lexer.ahead .star 1 1).feed [byteOf ' '] = ⟨.ahead (.word []) 2 2, none⟩ := by
    rw [feed_one rfl hroom.1 hroom.2]
    rfl
  have hopen := feed_after (b := [byteOf ' ']) hstar
  rw [hblank] at hopen
  have hword := feed_after (b := word.bytes) (same_clean hopen)
  have hletters : Unlike ([] ++ word.bytes.map toAsciiUppercase) := hunlike
  rcases feed_word word.plain hletters hbytes hstructured with hgoes | hdata
  · rw [hgoes] at hword
    exact ⟨_, .inr ⟨_, rfl, hunlike⟩, same_clean hword⟩
  · rw [hdata] at hword
    exact ⟨_, .inl rfl, same_clean hword⟩

/-- The line end ends the response. -/
theorem feed_end {line : Line} (hline : line.Settles) (hbytes : bytes + 2 ≤ MAX_RESPONSE_BYTES)
    (hstructured : structured + 2 ≤ MAX_STRUCTURED_BYTES) :
    (Lexer.ahead line bytes structured).feed [CR, LF] = ⟨.start, none⟩ := by
  have hcr := feed_wordEnd (.inr rfl) hline (Nat.le_trans (Nat.le_succ _) hbytes)
    (Nat.le_trans (Nat.le_succ _) hstructured)
  rw [decide_eq_true rfl] at hcr
  have hlf := feed_after (b := [LF]) hcr
  rw [feed_lf hbytes hstructured] at hlf
  exact same_clean hlf

/-- The items behind the word and its blank, and the line end. -/
theorem feed_rest {line : Line} (hline : line.Settles) (items : ResponseItems)
    (hbytes : bytes + (items.bytes.length + 3) ≤ MAX_RESPONSE_BYTES)
    (hstructured : structured + (items.bytes.length - items.literals + 3) ≤ MAX_STRUCTURED_BYTES) :
    (items.levels ≤ MAX_NESTING →
      (Lexer.ahead line bytes structured).feed ([byteOf ' '] ++ (items.bytes ++ [CR, LF])) =
        ⟨.start, none⟩) ∧
    (MAX_NESTING < items.levels →
      ((Lexer.ahead line bytes structured).feed
        ([byteOf ' '] ++ (items.bytes ++ [CR, LF]))).stopped = some .nesting) := by
  have hblank : (Lexer.ahead line bytes structured).feed [byteOf ' '] =
      ⟨.on .plain 0 (bytes + 1) (structured + 1), none⟩ :=
    feed_wordEnd (.inl rfl) hline (by omega) (by omega)
  have hreads := reads_items items (by omega)
  have hwhole := feed_after (b := items.bytes ++ [CR, LF]) hblank
  constructor
  · intro hlevels
    have hitems := hreads.fits 0 (bytes + 1) (structured + 1) (by omega) (by omega) (by omega)
    have hend : (Lexer.on .plain 0 (bytes + 1 + items.bytes.length)
        (structured + 1 + (items.bytes.length - items.literals))).feed [CR, LF] = ⟨.start, none⟩ :=
      feed_end (.inl rfl) (by omega) (by omega)
    have hrest := feed_after (b := [CR, LF]) hitems
    rw [hend] at hrest
    rw [same_clean hrest] at hwhole
    exact same_clean hwhole
  · intro hlevels
    have hitems := hreads.trips 0 (bytes + 1) (structured + 1) (Nat.zero_le _) (by omega) (by omega)
      (by omega)
    rw [hwhole.stopped, (Lexer.feed_append _ items.bytes _).stopped, Fed.andThen_stopped hitems,
      hitems]

/-- **A line of data trips the lexer for nesting exactly where its lists go deeper than the limit**, and is
read to its end otherwise: what a string, an escape or a literal holds is no level and hides none. -/
theorem feed_line {line : ResponseLine} (hdata : line.Data) (hfits : line.Fits) :
    ((Lexer.start.feed line.bytes).stopped = some .nesting ↔ MAX_NESTING < line.levels) ∧
      (line.levels ≤ MAX_NESTING → Lexer.start.feed line.bytes = ⟨.start, none⟩) := by
  obtain ⟨hclean, htrips⟩ : (line.levels ≤ MAX_NESTING →
        Lexer.start.feed line.bytes = ⟨.start, none⟩) ∧
      (MAX_NESTING < line.levels → (Lexer.start.feed line.bytes).stopped = some .nesting) := by
    obtain ⟨word, items⟩ := line
    obtain ⟨hbytes, hstructured⟩ := hfits
    have hunlike : Unlike (word.bytes.map toAsciiUppercase) := hdata
    cases items with
    | none =>
      have hlength : (ResponseLine.mk word none).bytes.length = 2 + word.bytes.length + 2 := by
        simp [ResponseLine.bytes, ResponseLine.tail]
        omega
      have hnone : (ResponseLine.mk word none).literals = 0 := rfl
      rw [hlength] at hbytes hstructured
      rw [hnone] at hstructured
      obtain ⟨line, hline, hhead⟩ := feed_head hunlike (by omega) (by omega)
      have hwhole := feed_after (b := [CR, LF]) hhead
      rw [feed_end hline (by omega) (by omega)] at hwhole
      refine ⟨fun _ => ?_, fun hover => absurd hover (Nat.not_lt_zero _)⟩
      simpa [ResponseLine.bytes, ResponseLine.tail] using same_clean hwhole
    | some items =>
      have hlength : (ResponseLine.mk word (some items)).bytes.length =
          2 + word.bytes.length + (items.bytes.length + 3) := by
        simp [ResponseLine.bytes, ResponseLine.tail]
        omega
      have hsome : (ResponseLine.mk word (some items)).literals = items.literals := rfl
      rw [hlength] at hbytes hstructured
      rw [hsome] at hstructured
      have hle := (reads_items items (by omega)).le
      obtain ⟨line, hline, hhead⟩ := feed_head hunlike (by omega) (by omega)
      have hroom : 2 + word.bytes.length + (items.bytes.length - items.literals + 3) ≤
          MAX_STRUCTURED_BYTES := by omega
      obtain ⟨hclean, htrips⟩ := feed_rest hline items hbytes hroom
      have hwhole := feed_after (b := [byteOf ' '] ++ (items.bytes ++ [CR, LF])) hhead
      have hbytesEq : (ResponseLine.mk word (some items)).bytes =
          [byteOf '*', byteOf ' '] ++ word.bytes ++ ([byteOf ' '] ++ (items.bytes ++ [CR, LF])) := by
        simp [ResponseLine.bytes, ResponseLine.tail]
      rw [hbytesEq]
      refine ⟨fun hlevels => ?_, fun hover => ?_⟩
      · have hrest := hclean hlevels
        rw [hrest] at hwhole
        exact same_clean hwhole
      · rw [hwhole.stopped]
        exact htrips hover
  refine ⟨⟨fun h => ?_, htrips⟩, hclean⟩
  by_contra hshallow
  rw [hclean (Nat.le_of_not_lt hshallow)] at h
  cases h

end

/-- A line that hides parentheses in an escape, a string and a literal, in two lists. -/
def hidingLine : ResponseLine where
  word := ⟨bytesOf "LIST", by decide, by decide⟩
  items := some (.cons false (.list (.cons false (.quoted
      [.plain (byteOf '(') (by decide), .escaped (byteOf '"') (.inr rfl)])
    (.cons true (.list (.cons false (.literal
      ⟨bytesOf "03", bytesOf ")\"(", by decide, by decide, by decide⟩) .nil)) .nil))) .nil)

theorem feed_line_hiding : hidingLine.levels = 2 ∧
    Lexer.start.feed hidingLine.bytes = ⟨.start, none⟩ := by
  refine ⟨by decide +kernel, (feed_line ?_ ?_).2 (by decide +kernel)⟩
  · unfold ResponseLine.Data
    decide +kernel
  · unfold ResponseLine.Fits
    decide +kernel

/-! ## Lines of free text -/

/-- A status line whose text is a quoted string of parentheses. -/
def quotedStatus : ResponseLine where
  word := ⟨bytesOf "OK", by decide, by decide⟩
  items := some (.cons false (.quoted (List.replicate 33 (.plain (byteOf '(') (by decide)))) .nil)

/-- **A status line is free text**: a quoted string of parentheses is no list and trips the lexer. -/
theorem quoted_levels_count : ¬ ∀ line : ResponseLine, line.Fits →
    ((Lexer.start.feed line.bytes).stopped = some .nesting ↔ MAX_NESTING < line.levels) := by
  intro h
  have hfits : quotedStatus.Fits := by
    unfold ResponseLine.Fits
    decide +kernel
  have hshallow : ¬ MAX_NESTING < quotedStatus.levels := by decide +kernel
  -- The bytes up to the last parenthesis are read clean, and that one trips the lexer.
  have hread : (Lexer.start.cleanly (quotedStatus.bytes.take 38)).map
      (fun next => (next.literalLeft, (next.byte (byteOf '(')).stopped)) =
        some (none, some .nesting) := by
    decide +kernel
  obtain ⟨next, hclean, hlast⟩ := Option.map_eq_some_iff.1 hread
  obtain ⟨hleft, hstopped⟩ := Prod.mk.inj hlast
  have hrest : quotedStatus.bytes.drop 38 = byteOf '(' :: quotedStatus.bytes.drop 39 := by
    decide +kernel
  have htrips : (Lexer.start.feed quotedStatus.bytes).stopped = some .nesting := by
    rw [← List.take_append_drop 38 quotedStatus.bytes, Lexer.feed_cleanly hclean, hrest,
      Lexer.feed_byte hleft, Fed.andThen_stopped hstopped, hstopped]
  exact hshallow ((h quotedStatus hfits).1 htrips)

end Huliho.Session
