import Mathlib.Data.List.TakeWhile
import Huliho.Lib.Carried
import Huliho.Lib.Lines

/-!
# The transfer encoding of a part

`blob/decode.rs`: a part decoded window by window. Base64 is cut behind its last whole quartet and
quoted-printable behind its last line break, so the windows of a part decode to what the part does at
once (**`windows_decode`**). The decoders are parameters: the one of base64 works quartet by quartet, the
one of quoted-printable line by line.
-/

namespace Huliho.Decode

abbrev Bytes := List UInt8

def TAB : UInt8 := 9
def LF : UInt8 := 10
def CR : UInt8 := 13
def SPACE : UInt8 := 32

/-- What pads the last quartet of a base64 body, and what opens an escape of quoted-printable. -/
def PAD : UInt8 := 61

/-- The symbols of one base64 quartet. -/
def QUARTET : Nat := 4

/-- The longest unfinished escape a cut can leave. -/
def ESCAPE_BYTES : Nat := 2

/-- The escape an equals sign is written as. -/
def EQUALS : Bytes := [61, 51, 68]

/-- The longest line a message may carry with its line break. -/
def LONG_LINE : Nat := 1000

inductive Encoding
  | identity
  | base64
  | quotedPrintable
deriving DecidableEq

def isDigit (byte : UInt8) : Bool := 48 ≤ byte && byte ≤ 57

def isHexDigit (byte : UInt8) : Bool :=
  isDigit byte || (65 ≤ byte && byte ≤ 70) || (97 ≤ byte && byte ≤ 102)

/-- A symbol of the base64 alphabet. -/
def symbol (byte : UInt8) : Bool :=
  isDigit byte || (65 ≤ byte && byte ≤ 90) || (97 ≤ byte && byte ≤ 122) || byte = 43 || byte = 47

/-- White space that may stand ahead of a line break. -/
def isBlank (byte : UInt8) : Bool := byte = SPACE || byte = TAB || byte = CR

/-! ## Quartets -/

/-- The symbols a quartet is still open by after one more. -/
def pendingNext (pending : Nat) (byte : UInt8) : Nat :=
  if byte = PAD then 0 else (pending + 1) % QUARTET

/-- The loop of `quartets`. -/
def quartetsLoop : Bytes → Nat → Nat → Nat → Nat
  | [], _, _, stop => stop
  | byte :: rest, index, pending, stop =>
    quartetsLoop rest (index + 1) (pendingNext pending byte)
      (if pendingNext pending byte = 0 then index + 1 else stop)

/-- The end of the last whole quartet among symbols and pads. -/
def quartets (symbols : Bytes) : Nat := quartetsLoop symbols 0 0 0

/-- The symbols the last quartet is open by. -/
def pending (symbols : Bytes) : Nat := symbols.foldl pendingNext 0

/-! ## Lines -/

/-- Whether two hex digits follow. -/
def startsHex : Bytes → Bool
  | first :: second :: _ => isHexDigit first && isHexDigit second
  | _ => false

/-- Whether what follows an `=` makes it an escape or a soft line break. -/
def opens (rest : Bytes) : Bool :=
  startsHex rest || (rest.dropWhile isBlank).head? = some LF

/-- The loop of `mended`, behind one byte. -/
def mendedLoop : UInt8 → Bytes → Bytes
  | _, [] => []
  | before, byte :: rest =>
    (if byte = PAD ∧ ¬ opens rest then EQUALS
      else if byte = LF ∧ before ≠ CR then [CR, LF]
      else [byte]) ++ mendedLoop byte rest

/-- The bytes as the decoder reads them without loss and without regard to what came before them. -/
def mended (bytes : Bytes) : Bytes := mendedLoop 0 bytes

/-- The end of the last line break. -/
def lastBreak : Bytes → Option Nat
  | [] => none
  | byte :: rest =>
    match lastBreak rest with
    | some stop => some (stop + 1)
    | none => if byte = LF then some 1 else none

/-- Where quoted-printable bytes may be cut. -/
def lines (bytes : Bytes) : Nat :=
  match lastBreak bytes with
  | some stop => stop
  | none =>
    if bytes.length < LONG_LINE then 0
    else
      let tail := bytes.length - ESCAPE_BYTES
      match (bytes.drop tail).findIdx? fun byte => byte = PAD || byte = CR with
      | some found => tail + found
      | none => bytes.length

/-- Bytes as the mending leaves them, behind one byte: every `=` opens an escape or a soft line break,
and a CR stands ahead of every LF. -/
def Conforming : UInt8 → Bytes → Prop
  | _, [] => True
  | before, byte :: rest =>
    (byte = PAD → opens rest) ∧ (byte = LF → before = CR) ∧ Conforming byte rest

/-! ## The decoder -/

/-- The decoders of the parser. Base64 is read quartet by quartet, a pad ending one early; mended
quoted-printable line by line. -/
structure Decoders where
  base64 : Bytes → Option Bytes
  quotedPrintable : Bytes → Option Bytes
  base64_append : ∀ {a b}, (∀ byte ∈ a, symbol byte ∨ byte = PAD) → pending a = 0 →
    base64 (a ++ b) = appended (base64 a) (base64 b)
  quotedPrintable_append : ∀ {a b}, Conforming 0 a → Conforming 0 b → Whole LF a →
    quotedPrintable (a ++ b) = appended (quotedPrintable a) (quotedPrintable b)

/-- The decoder of one blob: its encoding and what the last window left unfinished. -/
structure Decoder where
  encoding : Encoding
  carried : Bytes

/-- The decoder for a transfer encoding as the structure names it. -/
def Decoder.ofEncoding (encoding : String) : Decoder :=
  ⟨if encoding = "base64" then .base64
    else if encoding = "quoted-printable" then .quotedPrintable else .identity, []⟩

variable (decoders : Decoders)

/-- Lines of quoted-printable decoded. -/
def unquoted (lines : Bytes) : Option Bytes := decoders.quotedPrintable (mended lines)

/-- The symbols and pads of a window. -/
def symbols (window : Bytes) : Bytes := window.filter fun byte => symbol byte || byte = PAD

/-- The content of the next window, and the decoder behind it. -/
def Decoder.push (decoder : Decoder) (window : Bytes) (last : Bool) : Option Bytes × Decoder :=
  match decoder.encoding with
  | .identity => (some window, decoder)
  | .base64 =>
    let held := decoder.carried ++ symbols window
    let cut := if last then held.length else quartets held
    (decoders.base64 (held.take cut), { decoder with carried := held.drop cut })
  | .quotedPrintable =>
    let held := decoder.carried ++ window
    let cut := if last then held.length else lines held
    (unquoted decoders (held.take cut), { decoder with carried := held.drop cut })

/-- The windows of a part one after another, the last one said to be last; a window given up gives the
part up. -/
def Decoder.pushed (decoder : Decoder) : List Bytes → Option Bytes
  | [] => some []
  | [window] => (decoder.push decoders window true).1
  | window :: next :: windows =>
    let turn := decoder.push decoders window false
    appended turn.1 (turn.2.pushed (next :: windows))

section

variable {decoders : Decoders} {bytes rest : Bytes} {before byte : UInt8} {n : Nat}

/-! ## Base64 -/

theorem pending_append (bytes rest : Bytes) :
    pending (bytes ++ rest) = rest.foldl pendingNext (pending bytes) := List.foldl_append

/-- The loop stops behind a whole quartet. -/
theorem quartetsLoop_pending (bytes rest : Bytes) (hstop : n ≤ bytes.length)
    (hpending : pending (bytes.take n) = 0) :
    pending ((bytes ++ rest).take (quartetsLoop rest bytes.length (pending bytes) n)) = 0 := by
  induction rest generalizing bytes n with
  | nil => rwa [quartetsLoop, List.append_nil]
  | cons byte rest ih =>
    have hnext : pending (bytes ++ [byte]) = pendingNext (pending bytes) byte :=
      pending_append bytes [byte]
    have hlength : (bytes ++ [byte]).length = bytes.length + 1 := List.length_append
    have hmoved : bytes ++ byte :: rest = (bytes ++ [byte]) ++ rest := by simp
    rw [quartetsLoop, ← hnext, ← hlength, hmoved]
    split
    · rename_i hwhole
      refine ih (bytes ++ [byte]) (Nat.le_refl _) ?_
      rwa [List.take_length]
    · refine ih (bytes ++ [byte]) (by omega) ?_
      rwa [List.take_append_of_le_length hstop]

/-- Base64 is cut behind a whole quartet. -/
theorem quartets_pending (bytes : Bytes) : pending (bytes.take (quartets bytes)) = 0 :=
  quartetsLoop_pending [] bytes (Nat.le_refl 0) rfl

theorem symbols_append (window rest : Bytes) :
    symbols (window ++ rest) = symbols window ++ symbols rest := List.filter_append ..

theorem symbols_flatten (windows : List Bytes) :
    symbols windows.flatten = (windows.map symbols).flatten := by
  induction windows with
  | nil => rfl
  | cons window windows ih => rw [List.flatten_cons, symbols_append, ih, List.map_cons,
      List.flatten_cons]

theorem mem_symbols (h : byte ∈ symbols bytes) : symbol byte ∨ byte = PAD := by
  have hkept := (List.mem_filter.1 h).2
  exact (Bool.or_eq_true_iff.1 hkept).imp_right of_decide_eq_true

/-! ## Quoted-printable -/

theorem lastBreak_eq_none : lastBreak bytes = none ↔ LF ∉ bytes := by
  induction bytes with
  | nil => exact ⟨fun _ => List.not_mem_nil, fun _ => rfl⟩
  | cons byte bytes ih =>
    rw [lastBreak, List.mem_cons, not_or]
    cases hrest : lastBreak bytes with
    | some stop =>
      rw [hrest] at ih
      have hin : ¬ LF ∉ bytes := fun h => by cases ih.2 h
      exact ⟨fun h => (by cases h), fun h => absurd h.2 hin⟩
    | none =>
      have hnone : LF ∉ bytes := ih.1 hrest
      by_cases hbyte : byte = LF
      · simp [hbyte]
      · simp [hbyte, Ne.symm hbyte, hnone]

/-- Quoted-printable is cut behind a line break. -/
theorem getLast?_take_lastBreak (h : lastBreak bytes = some n) :
    (bytes.take n).getLast? = some LF := by
  induction bytes generalizing n with
  | nil => cases h
  | cons byte bytes ih =>
    rw [lastBreak] at h
    cases hrest : lastBreak bytes with
    | some stop =>
      rw [hrest] at h
      obtain rfl := Option.some.inj h
      rw [List.take_succ_cons, List.getLast?_cons, ih hrest]
      rfl
    | none =>
      rw [hrest] at h
      dsimp only at h
      split at h
      · rename_i hbyte
        obtain rfl := Option.some.inj h
        rw [hbyte]
        rfl
      · cases h

/-- A line break ends what an `=` ahead of it opens. -/
theorem opens_append (h : bytes.getLast? = some LF) : opens (bytes ++ rest) = opens bytes := by
  have hin : LF ∈ bytes := List.mem_of_getLast? h
  have hstop : bytes.dropWhile isBlank ≠ [] := by
    rw [ne_eq, List.dropWhile_eq_nil_iff]
    intro hall
    exact absurd (hall LF hin) (by decide)
  have hblank : ((bytes ++ rest).dropWhile isBlank).head? = (bytes.dropWhile isBlank).head? := by
    rw [List.dropWhile_append, if_neg (by simpa using hstop), List.head?_append_of_ne_nil _ hstop]
  rw [opens, opens, hblank]
  congr 1
  cases bytes with
  | nil => cases h
  | cons first bytes =>
    cases bytes with
    | cons second bytes => rfl
    | nil =>
      obtain rfl := Option.some.inj h
      cases rest with
      | nil => rfl
      | cons second rest => rfl

/-- A line break leaves the mending of what follows as it is. -/
theorem mendedLoop_LF (rest : Bytes) : mendedLoop LF rest = mendedLoop 0 rest := by
  cases rest with
  | nil => rfl
  | cons byte rest =>
    have hLF : LF ≠ CR := by decide
    have hzero : (0 : UInt8) ≠ CR := by decide
    rw [mendedLoop, mendedLoop]
    simp only [hLF, hzero, ne_eq, not_false_eq_true, and_true]

theorem mendedLoop_append (h : bytes.getLast? = some LF) :
    mendedLoop before (bytes ++ rest) = mendedLoop before bytes ++ mendedLoop 0 rest := by
  induction bytes generalizing before with
  | nil => cases h
  | cons byte bytes ih =>
    rw [List.cons_append, mendedLoop, mendedLoop]
    by_cases hnil : bytes = []
    · subst hnil
      obtain rfl := Option.some.inj h
      have hplain : LF ≠ PAD := by decide
      rw [List.nil_append, mendedLoop_LF, mendedLoop, List.append_nil]
      simp only [hplain, false_and, if_false]
    · have hlast : bytes.getLast? = some LF := by
        rwa [List.getLast?_cons_of_ne_nil hnil] at h
      rw [opens_append hlast, ih hlast, List.append_assoc]

/-- **Whole lines are mended by themselves.** -/
theorem mended_append (h : Whole LF bytes) : mended (bytes ++ rest) = mended bytes ++ mended rest := by
  rcases h with rfl | h
  · rfl
  · exact mendedLoop_append h

theorem getLast?_mendedLoop (h : bytes.getLast? = some LF) :
    (mendedLoop before bytes).getLast? = some LF := by
  induction bytes generalizing before with
  | nil => cases h
  | cons byte bytes ih =>
    rw [mendedLoop]
    by_cases hnil : bytes = []
    · subst hnil
      obtain rfl := Option.some.inj h
      have hplain : LF ≠ PAD := by decide
      rw [if_neg (fun hpad => hplain hpad.1), mendedLoop, List.append_nil]
      split
      · rfl
      · rfl
    · have hlast : bytes.getLast? = some LF := by
        rwa [List.getLast?_cons_of_ne_nil hnil] at h
      rw [List.getLast?_append, ih hlast]
      rfl

theorem whole_mended (h : Whole LF bytes) : Whole LF (mended bytes) := by
  rcases h with rfl | h
  · exact .inl rfl
  · exact .inr (getLast?_mendedLoop h)

/-- What an `=` opens it opens in the mended bytes too. -/
theorem opens_mendedLoop (h : opens bytes) : opens (mendedLoop before bytes) := by
  rcases Bool.or_eq_true_iff.1 h with hhex | hbreak
  · refine Bool.or_eq_true_iff.2 (.inl ?_)
    match bytes, hhex with
    | first :: second :: rest, hhex =>
      obtain ⟨hfirst, hsecond⟩ := Bool.and_eq_true_iff.1 hhex
      have hplain : ∀ byte, isHexDigit byte → byte ≠ PAD ∧ byte ≠ LF := by
        rintro byte hbyte
        refine ⟨?_, ?_⟩ <;> rintro rfl <;> exact absurd hbyte (by decide)
      obtain ⟨hfirstPad, hfirstLF⟩ := hplain first hfirst
      obtain ⟨hsecondPad, hsecondLF⟩ := hplain second hsecond
      rw [mendedLoop, mendedLoop, if_neg (fun hc => hfirstPad hc.1),
        if_neg (fun hc => hfirstLF hc.1), if_neg (fun hc => hsecondPad hc.1),
        if_neg (fun hc => hsecondLF hc.1)]
      exact hhex
  · refine Bool.or_eq_true_iff.2 (.inr (decide_eq_true ?_))
    replace hbreak := of_decide_eq_true hbreak
    clear h
    induction bytes generalizing before with
    | nil => cases hbreak
    | cons byte bytes ih =>
      rw [mendedLoop]
      by_cases hblank : isBlank byte
      · have hplain : byte ≠ PAD ∧ byte ≠ LF := by
          refine ⟨?_, ?_⟩ <;> rintro rfl <;> exact absurd hblank (by decide)
        rw [List.dropWhile_cons_of_pos hblank] at hbreak
        rw [if_neg (fun hc => hplain.1 hc.1), if_neg (fun hc => hplain.2 hc.1),
          List.singleton_append, List.dropWhile_cons_of_pos hblank]
        exact ih hbreak
      · rw [List.dropWhile_cons_of_neg hblank] at hbreak
        obtain rfl := Option.some.inj hbreak
        have hplain : LF ≠ PAD := by decide
        have hCR : isBlank CR := by decide
        rw [if_neg (fun hc => hplain hc.1)]
        split
        · rw [List.cons_append, List.dropWhile_cons_of_pos hCR, List.singleton_append,
            List.dropWhile_cons_of_neg hblank]
          rfl
        · rw [List.singleton_append, List.dropWhile_cons_of_neg hblank]
          rfl

/-- **Mended bytes conform**: nothing in them depends on what came before. -/
theorem conforming_mendedLoop {behind : UInt8} (hsame : behind = CR ↔ before = CR) (bytes : Bytes) :
    Conforming behind (mendedLoop before bytes) := by
  induction bytes generalizing before behind with
  | nil => trivial
  | cons byte bytes ih =>
    rw [mendedLoop]
    split
    · rename_i hpad
      obtain ⟨rfl, -⟩ := hpad
      have hrest : Conforming 68 (mendedLoop PAD bytes) := ih (by decide)
      have hopens : opens (51 :: 68 :: mendedLoop PAD bytes) := by
        refine Bool.or_eq_true_iff.2 (.inl ?_)
        change (isHexDigit 51 && isHexDigit 68) = true
        decide
      refine ⟨fun _ => hopens, fun h => absurd h (by decide), ?_⟩
      exact ⟨fun h => absurd h (by decide), fun h => absurd h (by decide),
        fun h => absurd h (by decide), fun h => absurd h (by decide), hrest⟩
    · rename_i hopen
      split
      · rename_i hbreak
        obtain ⟨rfl, -⟩ := hbreak
        exact ⟨fun h => absurd h (by decide), fun h => absurd h (by decide),
          fun h => absurd h (by decide), fun _ => rfl, ih Iff.rfl⟩
      · rename_i hplain
        refine ⟨fun hpad => opens_mendedLoop ?_, fun hLF => ?_, ih Iff.rfl⟩
        · by_contra hno
          exact hopen ⟨hpad, hno⟩
        · by_contra hno
          exact hplain ⟨hLF, fun hCR => hno (hsame.2 hCR)⟩

theorem conforming_mended (bytes : Bytes) : Conforming 0 (mended bytes) :=
  conforming_mendedLoop Iff.rfl bytes

/-! ## Windows -/

/-- Base64 splits behind a whole quartet. -/
theorem splits_base64 (hsymbols : ∀ byte ∈ bytes, symbol byte ∨ byte = PAD) :
    Splits decoders.base64 (bytes.take (quartets bytes)) := fun _ =>
  decoders.base64_append (fun byte hbyte => hsymbols byte (List.mem_of_mem_take hbyte))
    (quartets_pending bytes)

/-- Quoted-printable splits behind a line break. -/
theorem splits_unquoted (h : Whole LF bytes) : Splits (unquoted decoders) bytes := by
  intro rest
  rw [unquoted, mended_append h]
  exact decoders.quotedPrintable_append (conforming_mended bytes) (conforming_mended rest)
    (whole_mended h)

/-- No line of the bytes is longer than a decoder waits for. -/
def ShortLines (bytes : Bytes) : Prop :=
  ∀ line, line <:+: bytes → LF ∉ line → line.length < LONG_LINE

/-- Bytes of short lines are cut behind a line break or not at all. -/
theorem whole_take_lines (h : ShortLines bytes) (htext : rest <:+: bytes) :
    Whole LF (rest.take (lines rest)) := by
  rw [lines]
  split
  · rename_i stop hstop
    exact .inr (getLast?_take_lastBreak hstop)
  · rename_i hnone
    rw [if_pos (h rest htext (lastBreak_eq_none.1 hnone))]
    exact .inl rfl

theorem pushed_identity (windows : List Bytes) (held : Bytes) :
    Decoder.pushed decoders ⟨.identity, held⟩ windows = some windows.flatten := by
  induction windows with
  | nil => rfl
  | cons window windows ih =>
    cases windows with
    | nil =>
      rw [Decoder.pushed, List.flatten_singleton]
      rfl
    | cons next windows =>
      rw [Decoder.pushed, List.flatten_cons]
      change appended (some window) (Decoder.pushed decoders ⟨.identity, held⟩ _) = _
      rw [ih]
      rfl

/-- The turns of a base64 decoder are those of a decoder that carries. -/
theorem pushed_base64 (windows : List Bytes) (held : Bytes) :
    Decoder.pushed decoders ⟨.base64, held⟩ windows =
      carried decoders.base64 quartets held (windows.map symbols) := by
  induction windows generalizing held with
  | nil => rfl
  | cons window windows ih =>
    cases windows with
    | nil =>
      change decoders.base64 ((held ++ symbols window).take (held ++ symbols window).length) = _
      rw [List.take_length]
      rfl
    | cons next windows =>
      rw [Decoder.pushed, List.map_cons, List.map_cons, carried, ← List.map_cons, ← ih]
      rfl

/-- The turns of a quoted-printable decoder are those of a decoder that carries. -/
theorem pushed_quotedPrintable (windows : List Bytes) (held : Bytes) :
    Decoder.pushed decoders ⟨.quotedPrintable, held⟩ windows =
      carried (unquoted decoders) lines held windows := by
  induction windows generalizing held with
  | nil => rfl
  | cons window windows ih =>
    cases windows with
    | nil =>
      change unquoted decoders ((held ++ window).take (held ++ window).length) = _
      rw [List.take_length]
      rfl
    | cons next windows =>
      rw [Decoder.pushed, carried, ← ih]
      rfl

/-- **The windows of a part decode to what the part does at once**, however it is divided; a
quoted-printable one where no line is longer than the decoder waits for. -/
theorem windows_decode (decoders : Decoders) (encoding : String) (windows : List Bytes)
    (hwindows : windows ≠ [])
    (hlines : encoding = "quoted-printable" → ShortLines windows.flatten) :
    (Decoder.ofEncoding encoding).pushed decoders windows =
      ((Decoder.ofEncoding encoding).push decoders windows.flatten true).1 := by
  rw [Decoder.ofEncoding]
  by_cases hbase64 : encoding = "base64"
  · rw [if_pos hbase64, pushed_base64, carried_eq (by simpa using hwindows)]
    · change _ = decoders.base64 ((symbols windows.flatten).take (symbols windows.flatten).length)
      rw [List.take_length, symbols_flatten, List.nil_append]
    · intro text htext
      refine splits_base64 fun byte hbyte => ?_
      rw [List.nil_append, ← symbols_flatten] at htext
      exact mem_symbols (htext.subset hbyte)
  · rw [if_neg hbase64]
    by_cases hquoted : encoding = "quoted-printable"
    · rw [if_pos hquoted, pushed_quotedPrintable, carried_eq hwindows]
      · change _ = unquoted decoders (windows.flatten.take windows.flatten.length)
        rw [List.take_length, List.nil_append]
      · intro text htext
        exact splits_unquoted (whole_take_lines (hlines hquoted) htext)
    · rw [if_neg hquoted]
      exact pushed_identity windows []

end

/-! ## Decoders that work so -/

/-- The value of a symbol. -/
def sextet (byte : UInt8) : Nat :=
  if byte = 43 then 62
  else if byte = 47 then 63
  else if isDigit byte then byte.toNat + 4
  else if byte ≤ 90 then byte.toNat - 65
  else byte.toNat - 71

/-- The bytes of the symbols a quartet holds. -/
def quartet : List Nat → Bytes
  | [a] => [.ofNat (a * 4)]
  | [a, b] => [.ofNat (a * 4 + b / 16)]
  | [a, b, c] => [.ofNat (a * 4 + b / 16), .ofNat (b % 16 * 16 + c / 4)]
  | [a, b, c, d] =>
    [.ofNat (a * 4 + b / 16), .ofNat (b % 16 * 16 + c / 4), .ofNat (c % 4 * 64 + d)]
  | _ => []

/-- Base64 quartet by quartet: a pad ends one early, white space is passed over and any other byte gives
the text up. -/
def base64Loop : Bytes → List Nat → Option Bytes
  | [], _ => some []
  | byte :: rest, held =>
    if symbol byte then
      if held.length = 3 then
        (base64Loop rest []).map (quartet (held ++ [sextet byte]) ++ ·)
      else base64Loop rest (held ++ [sextet byte])
    else if byte = PAD then (base64Loop rest []).map (quartet held ++ ·)
    else if isBlank byte || byte = LF then base64Loop rest held
    else none

/-- The escapes of a line undone. -/
def unescape : Bytes → Bytes
  | 61 :: first :: second :: rest =>
    let digit (byte : UInt8) := if isDigit byte then byte.toNat - 48 else (byte.toNat - 55) % 32
    .ofNat (digit first * 16 + digit second) :: unescape rest
  | byte :: rest => byte :: unescape rest
  | [] => []

/-- One line of quoted-printable: the white space at its end falls away, and a soft break with the line
break behind it. -/
def unquotedLine (line : Bytes) : Bytes :=
  if line.getLast? = some LF then
    let text := (line.dropLast.reverse.dropWhile isBlank).reverse
    if text.getLast? = some PAD then unescape text.dropLast else unescape text ++ [CR, LF]
  else unescape line

theorem joined_map {first second : Option Bytes} (content : Bytes) :
    appended (first.map (content ++ ·)) second = (appended first second).map (content ++ ·) := by
  cases first with
  | none => rfl
  | some parsed =>
    cases second with
    | none => rfl
    | some rest => exact congrArg some (List.append_assoc content parsed rest)

theorem base64Loop_append {a b : Bytes} {held : List Nat} (hheld : held.length < QUARTET)
    (hsymbols : ∀ byte ∈ a, symbol byte ∨ byte = PAD)
    (hpending : a.foldl pendingNext held.length = 0) :
    base64Loop (a ++ b) held = appended (base64Loop a held) (base64Loop b []) := by
  induction a generalizing held with
  | nil =>
    obtain rfl := List.length_eq_zero_iff.1 hpending
    cases hb : base64Loop b [] with
    | none => exact hb
    | some content => exact hb
  | cons byte a ih =>
    obtain ⟨hbyte, hrest⟩ := List.forall_mem_cons.1 hsymbols
    rw [List.foldl_cons] at hpending
    rw [List.cons_append, base64Loop, base64Loop]
    by_cases hsymbol : symbol byte
    · have hplain : byte ≠ PAD := by
        rintro rfl
        exact absurd hsymbol (by decide)
      rw [pendingNext, if_neg hplain] at hpending
      rw [if_pos hsymbol, if_pos hsymbol]
      by_cases hfull : held.length = 3
      · rw [hfull] at hpending
        have hfresh : base64Loop (a ++ b) [] = appended (base64Loop a []) (base64Loop b []) :=
          ih (Nat.zero_lt_succ 3) hrest hpending
        rw [if_pos hfull, if_pos hfull, hfresh, joined_map]
      · have hopen : held.length + 1 < QUARTET := by
          have hbound : held.length < 4 := hheld
          change _ < 4
          omega
        have hlength : (held ++ [sextet byte]).length = held.length + 1 := List.length_append
        rw [Nat.mod_eq_of_lt hopen, ← hlength] at hpending
        rw [if_neg hfull, if_neg hfull, ih (by rwa [hlength]) hrest hpending]
    · have hpad := hbyte.resolve_left hsymbol
      rw [pendingNext, if_pos hpad] at hpending
      have hfresh : base64Loop (a ++ b) [] = appended (base64Loop a []) (base64Loop b []) :=
        ih (Nat.zero_lt_succ 3) hrest hpending
      rw [if_neg hsymbol, if_neg hsymbol, if_pos hpad, if_pos hpad, hfresh, joined_map]

/-- Decoders that read base64 quartet by quartet and quoted-printable line by line. -/
def plainDecoders : Decoders where
  base64 bytes := base64Loop bytes []
  quotedPrintable bytes := some ((Huliho.lines LF bytes).flatMap unquotedLine)
  base64_append hsymbols hpending := base64Loop_append (by decide) hsymbols hpending
  quotedPrintable_append := by
    intro a b _ _ hwhole
    rw [lines_append hwhole, List.flatMap_append]
    rfl

/-- The bytes of an ASCII text. -/
def ascii (text : String) : Bytes := text.toList.map fun c => .ofNat c.toNat

/-- A part cut inside an escape and inside a soft break. -/
theorem windows_decode_cuts :
    (Decoder.ofEncoding "quoted-printable").pushed plainDecoders
        [ascii "caf=4", ascii "1 =\r", ascii "\nau lait"] =
      ((Decoder.ofEncoding "quoted-printable").push plainDecoders
        [ascii "caf=4", ascii "1 =\r", ascii "\nau lait"].flatten true).1 :=
  windows_decode plainDecoders "quoted-printable" _ (List.cons_ne_nil _ _) fun _ _ hline _ =>
    Nat.lt_of_le_of_lt hline.length_le (by decide +kernel)

example : (Decoder.ofEncoding "quoted-printable").pushed plainDecoders
    [ascii "caf=4", ascii "1 =\r", ascii "\nau lait"] = some (ascii "cafA au lait") := by
  decide +kernel

end Huliho.Decode
