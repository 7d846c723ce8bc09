import Huliho.Lib.Feeds

/-!
# The guard's lexer

`session/guard/lexer.rs`: enough of the response grammar to tell a parenthesis that opens a list from
one inside a quoted string or a literal, and to count the bytes of a response. The lexer reads a
chunk byte by byte; only the body of a literal it skips as far as the chunk goes.

A byte is a `UInt8`, a count a `Nat`. The counts are `usize` in the source: each is at most one chunk
past its bound, so the saturating additions never saturate and the others never overflow. The size
of a literal is a `u32`, with the overflow checks of the source.
-/

namespace Huliho.Session

/-- The bound a response passed. -/
inductive Limit
  | nesting
  | size
  | structured
  | literal
deriving DecidableEq, Repr

/-- The parenthesis levels one response may open. -/
def MAX_NESTING : Nat := 32

/-- The bytes one response may take, literals included. -/
def MAX_RESPONSE_BYTES : Nat := 1024 * 1024

/-- The bytes one response may take outside its literals. -/
def MAX_STRUCTURED_BYTES : Nat := 64 * 1024

/-- The byte of an ASCII character. -/
def byteOf (c : Char) : UInt8 := UInt8.ofNat c.toNat

/-- The bytes of an ASCII text. -/
def bytesOf (text : String) : List UInt8 := text.toList.map byteOf

def CR : UInt8 := 13
def LF : UInt8 := 10

/-- The words that open a line of free text. -/
def STATUS_WORDS : List (List UInt8) :=
  [bytesOf "OK", bytesOf "NO", bytesOf "BAD", bytesOf "BYE", bytesOf "PREAUTH"]

/-- The longest status word. -/
def WORD_BYTES : Nat := 7

/-- How much of a literal's size marker free text has shown. -/
inductive Marker
  | absent
  | opened
  | digits
  | closed
  | cr
  | complete
deriving DecidableEq, Repr

def isDigit (byte : UInt8) : Bool := byteOf '0' ≤ byte && byte ≤ byteOf '9'

def Marker.after (marker : Marker) (byte : UInt8) : Marker :=
  if byte = byteOf '{' then .opened
  else
    match marker with
    | .opened => if isDigit byte then .digits else .absent
    | .digits =>
      if isDigit byte then .digits
      else if byte = byteOf '}' then .closed
      else .absent
    | .closed => if byte = CR then .cr else .absent
    | .cr => if byte = LF then .complete else .absent
    | _ => .absent

/-- Where the lexer stands on a data line. -/
inductive Mode
  | plain
  | quoted
  /-- After a backslash inside a quoted string. -/
  | escaped
  /-- Inside a size marker: the size so far, none before its first digit. -/
  | size (digits : Option Nat)
  /-- After its closing brace: the carriage return is due. -/
  | sizeCr (size : Nat)
  /-- After that: the line feed is due. -/
  | sizeLf (size : Nat)
  /-- Inside a literal with this many bytes to go. -/
  | literal (left : Nat)
deriving DecidableEq, Repr

/-- How far the current line is understood. -/
inductive Line
  /-- Nothing read yet. -/
  | start
  /-- A star read; a space makes it an untagged line. -/
  | star
  /-- The word after the star and the space, in upper case, until it ends or fills. -/
  | word (letters : List UInt8)
  /-- A status line, a tagged line or a continuation: no string is told apart. -/
  | text
  /-- Untagged data: quoted strings and literals are skipped. -/
  | data (mode : Mode)
deriving DecidableEq, Repr

/-- Where the lexer stands in the stream. -/
structure Lexer where
  line : Line
  depth : Nat
  bytes : Nat
  /-- The bytes of this response outside its literals. -/
  structured : Nat
  /-- Whether the last byte was a carriage return that may end a line. -/
  cr : Bool
  marker : Marker
deriving DecidableEq, Repr

def Lexer.start : Lexer := ⟨.start, 0, 0, 0, false, .absent⟩

/-- What reading bytes leaves, and the bound they passed. -/
abbrev Lexed := Fed Lexer Limit

def toAsciiUppercase (byte : UInt8) : UInt8 :=
  if byteOf 'a' ≤ byte && byte ≤ byteOf 'z' then byte - 32 else byte

/-- The line kind once the word ends or fills: free text behind a status word, data otherwise. -/
def word (letters : List UInt8) (byte : UInt8) : Line :=
  let ended := byte = byteOf ' ' ∨ byte = CR
  let letters := if ended then letters else letters ++ [toAsciiUppercase byte]
  if ¬ ended ∧ letters.length < WORD_BYTES then .word letters
  else if STATUS_WORDS.any fun status => status.isPrefixOf letters then .text
  else .data .plain

/-- A size with one more digit; none past a `u32`. -/
def grown (digits : Option Nat) (byte : UInt8) : Option Nat :=
  let tens := digits.getD 0 * 10
  if 4294967296 ≤ tens then none
  else
    let size := tens + (byte - byteOf '0').toNat
    if 4294967296 ≤ size then none else some size

namespace Lexer

def count (lexer : Lexer) (bytes : Nat) : Lexed :=
  let lexer := { lexer with bytes := lexer.bytes + bytes }
  if MAX_RESPONSE_BYTES < lexer.bytes then ⟨lexer, some .size⟩ else ⟨lexer, none⟩

/-- One byte outside a literal. -/
def countStructured (lexer : Lexer) : Lexed :=
  let lexer := { lexer with structured := lexer.structured + 1 }
  if MAX_STRUCTURED_BYTES < lexer.structured then ⟨lexer, some .structured⟩ else lexer.count 1

def endOfLine (lexer : Lexer) (byte : UInt8) : Lexer :=
  if byte = LF ∧ lexer.cr then start else { lexer with cr := byte = CR }

/-- A byte where no string is told apart: every parenthesis counts and a line feed after a carriage
return ends the response. -/
def text (lexer : Lexer) (byte : UInt8) : Lexed :=
  if byte = byteOf '(' then
    let lexer := { lexer with depth := lexer.depth + 1 }
    if MAX_NESTING < lexer.depth then ⟨lexer, some .nesting⟩ else ⟨lexer.endOfLine byte, none⟩
  else if byte = byteOf ')' then
    ⟨({ lexer with depth := lexer.depth - 1 } : Lexer).endOfLine byte, none⟩
  else ⟨lexer.endOfLine byte, none⟩

/-- A byte of a status line, a tagged line or a continuation, where a complete size marker fails the
read. -/
def freeText (lexer : Lexer) (byte : UInt8) : Lexed :=
  let lexer := { lexer with marker := lexer.marker.after byte }
  if lexer.marker = .complete then ⟨lexer, some .literal⟩ else lexer.text byte

/-- The lexer in its next mode. -/
def become (lexer : Lexer) (mode : Mode) : Lexed :=
  ⟨{ lexer with line := .data mode, cr := false }, none⟩

/-- A byte on a data line outside strings and sizes. -/
def plain (lexer : Lexer) (byte : UInt8) : Lexed :=
  if byte = byteOf '"' then lexer.become .quoted
  else if byte = byteOf '{' then lexer.become (.size none)
  else lexer.text byte

/-- A byte of a quoted string, which holds no line break, so one ends the response here too. -/
def quoted (lexer : Lexer) (byte : UInt8) : Lexed :=
  if byte = byteOf '\\' then lexer.become .escaped
  else if byte = byteOf '"' then lexer.become .plain
  else ⟨lexer.endOfLine byte, none⟩

/-- A byte on a data line. What the parser would refuse is no size and no escape: the byte is read
once more as a plain one or as one of the string. -/
def data (lexer : Lexer) (mode : Mode) (byte : UInt8) : Lexed :=
  match mode with
  | .plain => lexer.plain byte
  | .quoted => lexer.quoted byte
  | .escaped =>
    if byte = byteOf '\\' ∨ byte = byteOf '"' then lexer.become .quoted
    else ({ lexer with line := .data .quoted } : Lexer).quoted byte
  | .size digits =>
    if isDigit byte then
      lexer.become ((grown digits byte).elim .plain fun size => .size (some size))
    else
      match digits with
      | some size =>
        if byte = byteOf '}' then lexer.become (.sizeCr size)
        else ({ lexer with line := .data .plain } : Lexer).plain byte
      | none => ({ lexer with line := .data .plain } : Lexer).plain byte
  | .sizeCr size =>
    if byte = CR then lexer.become (.sizeLf size)
    else ({ lexer with line := .data .plain } : Lexer).plain byte
  | .sizeLf size =>
    if byte = LF then lexer.become (if size = 0 then .plain else .literal size)
    else ({ lexer with line := .data .plain } : Lexer).plain byte
  | .literal left => lexer.become (if 1 < left then .literal (left - 1) else .plain)

def step (lexer : Lexer) (byte : UInt8) : Lexed :=
  match lexer.line with
  | .start =>
    ({ lexer with line := if byte = byteOf '*' then .star else .text } : Lexer).freeText byte
  | .star =>
    ({ lexer with line := if byte = byteOf ' ' then .word [] else .text } : Lexer).freeText byte
  | .word letters => ({ lexer with line := Session.word letters byte } : Lexer).freeText byte
  | .text => lexer.freeText byte
  | .data mode => lexer.data mode byte

/-- The bytes of a literal still to come, inside one. -/
def literalLeft (lexer : Lexer) : Option Nat :=
  match lexer.line with
  | .data (.literal left) => some left
  | _ => none

/-- The lexer once it skipped bytes of a literal. -/
def skipped (lexer : Lexer) (left bytes : Nat) : Lexer :=
  { lexer with
    line := .data (if left - bytes = 0 then .plain else .literal (left - bytes)) }

/-- One byte outside a literal. -/
def byte (lexer : Lexer) (byte : UInt8) : Lexed :=
  lexer.countStructured.andThen fun lexer => lexer.step byte

/-- Reads one chunk: a literal is skipped as far as the chunk goes, every other byte read. -/
def feed (lexer : Lexer) : List UInt8 → Lexed
  | [] => ⟨lexer, none⟩
  | byte :: tail =>
    match hline : lexer.literalLeft with
    | some left =>
      let skip := min left (tail.length + 1)
      (lexer.count skip).andThen fun lexer =>
        (lexer.skipped left skip).feed ((byte :: tail).drop skip)
    | none => (lexer.byte byte).andThen fun lexer => lexer.feed tail
termination_by chunk => (chunk.length, if lexer.literalLeft = some 0 then 1 else 0)
decreasing_by
  · by_cases hleft : left = 0
    · -- A literal with no byte left skips none and ends.
      subst hleft
      have hended : (lexer.skipped 0 0).literalLeft = none := rfl
      simp [Prod.lex_def, hline, hended]
    · simp only [Prod.lex_def, List.length_drop, List.length_cons]
      omega
  · simp [Prod.lex_def]

end Lexer

end Huliho.Session
