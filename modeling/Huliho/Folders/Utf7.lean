import Mathlib.Data.List.Chain
import Huliho.Lib.Base64
import Huliho.Lib.Utf16

/-!
# Mailbox names in modified UTF-7

`utf7.rs`: printable ASCII goes as itself, `&` as `&-` and every other run as `&`, the base64 of its
UTF-16 and `-`. A name is read as pieces: characters that go as themselves, shifts and runs. Over lawful
pieces `encode` writes their wire form (`encode_pieces`) and `decode` reads it back
(`decode_pieces`); every text has lawful pieces (`exists_pieces`), which is the round trip
(**`encode_decode_names`**). The base64 is a parameter with the laws it is documented to keep.
-/

namespace Huliho.Utf7

abbrev Text := List Char

def MODIFIED_ALPHABET : Text :=
  "ABCDEFGHIJKLMNOPQRSTUVWXYZabcdefghijklmnopqrstuvwxyz0123456789+,".toList

def SHIFT : Char := '&'
def UNSHIFT : Char := '-'

/-- Base64 over the modified alphabet, without padding: what is decoded is the encoding of its bytes, so
no padding, no bit that stands for nothing and no other character is taken. -/
structure Base64 where
  encode : List UInt8 → Text
  decode : Text → Option (List UInt8)
  decode_encode : ∀ bytes, decode (encode bytes) = some bytes
  encode_decode : ∀ {coded bytes}, decode coded = some bytes → encode bytes = coded
  encode_nil : encode [] = []
  mem_alphabet : ∀ {bytes c}, c ∈ encode bytes → c ∈ MODIFIED_ALPHABET

/-- The characters of the modified alphabet. -/
def modifiedAlphabet : Alphabet where
  symbol v := MODIFIED_ALPHABET.getD v.val 'A'
  injective := by decide +kernel

/-- Base64 as it is specified. -/
def modifiedBase64 : Base64 where
  encode := modifiedAlphabet.encodeBase64
  decode := modifiedAlphabet.decodeBase64
  decode_encode := Alphabet.decode_encode
  encode_decode := Alphabet.encode_decode
  encode_nil := rfl
  mem_alphabet := by
    intro bytes c hc
    obtain ⟨v, -, rfl⟩ := List.mem_map.1 hc
    have hall : ∀ v, modifiedAlphabet.symbol v ∈ MODIFIED_ALPHABET := by decide +kernel
    exact hall v

/-- Whether a character travels as itself: printable ASCII but the shift. -/
def isDirect (c : Char) : Bool := (' ' ≤ c && c ≤ '~') && c ≠ SHIFT

/-- The bytes of a text in UTF-16. -/
def utf16Bytes (text : Text) : List UInt8 := (text.flatMap utf16).flatMap bigEndian

/-- A text around the first of a character; `none` where it is not in the text. -/
def cut (c : Char) : Text → Option (Text × Text)
  | [] => none
  | d :: text => if d = c then some ([], text) else (cut c text).map fun found => (d :: found.1, found.2)

theorem cut_length {c : Char} {text before after : Text} (h : cut c text = some (before, after)) :
    after.length < text.length := by
  induction text generalizing before with
  | nil => cases h
  | cons d text ih =>
    rw [cut] at h
    split at h
    · cases h
      exact Nat.lt_succ_self _
    · obtain ⟨⟨first, rest⟩, hcut, hfound⟩ := Option.map_eq_some_iff.1 h
      cases hfound
      exact Nat.lt_succ_of_lt (ih hcut)

variable (base64 : Base64)

/-- The text of one shifted run; the empty run is the shift character itself. -/
def decodeRun (run : Text) : Option Text :=
  if run = [] then some [SHIFT]
  else do
    let bytes ← base64.decode run
    if bytes.length % 2 ≠ 0 then none else fromUtf16 (units bytes)

/-- Decodes a name the server sent. A run that is not valid stays as received. -/
def decode (name : Text) : Text :=
  match _hstart : cut SHIFT name with
  | none => name
  | some (before, after) =>
    match _hend : cut UNSHIFT after with
    | none => before ++ SHIFT :: after
    | some (run, rest) =>
      before ++ ((decodeRun base64 run).getD (SHIFT :: run ++ [UNSHIFT]) ++ decode rest)
termination_by name.length
decreasing_by exact Nat.lt_trans (cut_length _hend) (cut_length _hstart)

def flush (out : Text) (run : List UInt8) : Text :=
  if run = [] then out else out ++ SHIFT :: base64.encode run ++ [UNSHIFT]

/-- The loop of `encode`: what is written and the bytes of the run being filled. -/
def encodeLoop : Text → Text → List UInt8 → Text
  | [], out, run => flush base64 out run
  | c :: name, out, run =>
    if isDirect c then encodeLoop name (flush base64 out run ++ [c]) []
    else if c = SHIFT then encodeLoop name (flush base64 out run ++ [SHIFT, UNSHIFT]) []
    else encodeLoop name out (run ++ (utf16 c).flatMap bigEndian)

/-- Encodes a name for the wire. -/
def encode (name : Text) : Text := encodeLoop base64 name [] []

/-! ## Pieces -/

/-- Whether a character travels in a run alone. -/
def isShifted (c : Char) : Bool := !isDirect c && c ≠ SHIFT

/-- A piece of a name: a character as itself, the shift character, or a run, as it is written and as it
is read. -/
inductive Piece
  | direct (c : Char)
  | shift
  | run (coded text : Text)

namespace Piece

/-- A piece as it is written. -/
def wire : Piece → Text
  | direct c => [c]
  | shift => [SHIFT, UNSHIFT]
  | run coded _ => SHIFT :: coded ++ [UNSHIFT]

/-- A piece as it is read. -/
def text : Piece → Text
  | direct c => [c]
  | shift => [SHIFT]
  | run _ text => text

/-- A run is taken by the decoder and holds no character that could go as itself. -/
def Lawful : Piece → Prop
  | direct c => isDirect c
  | shift => True
  | run coded text =>
    coded ≠ [] ∧ decodeRun base64 coded = some text ∧ text ≠ [] ∧ ∀ c ∈ text, isShifted c

def isRun : Piece → Bool
  | run _ _ => true
  | _ => false

end Piece

/-- Pieces that are lawful each, no two runs side by side. -/
def LawfulPieces (pieces : List Piece) : Prop :=
  (∀ piece ∈ pieces, piece.Lawful base64) ∧
    pieces.IsChain fun first second => ¬ (first.isRun ∧ second.isRun)

/-- A name in the form RFC 3501 asks for: every run is one the decoder takes, holds nothing that could
go as itself, and follows no other run. In it a `&` stands only at the head of a shift. -/
def Canonical (name : Text) : Prop :=
  ∃ pieces, LawfulPieces base64 pieces ∧ name = pieces.flatMap Piece.wire

section

variable {base64 : Base64} {c : Char} {name before after run rest coded out : Text}
variable {pieces : List Piece} {bytes : List UInt8}

/-! ## The wire read -/

theorem cut_append (h : c ∉ before) : cut c (before ++ c :: after) = some (before, after) := by
  induction before with
  | nil => rw [List.nil_append, cut, if_pos rfl]
  | cons d before ih =>
    obtain ⟨hother, hrest⟩ := not_or.1 (mt List.mem_cons.2 h)
    rw [List.cons_append, cut, if_neg (Ne.symm hother), ih hrest]
    rfl

/-- The loop of `decode`, its cuts no longer carried as proofs. -/
theorem decode_eq (name : Text) : decode base64 name =
    match cut SHIFT name with
    | none => name
    | some (before, after) =>
      match cut UNSHIFT after with
      | none => before ++ SHIFT :: after
      | some (run, rest) =>
        before ++
          ((decodeRun base64 run).getD (SHIFT :: run ++ [UNSHIFT]) ++ decode base64 rest) := by
  rw [decode.eq_def]
  split
  · rename_i hstart
    rw [hstart]
  · rename_i before after hstart
    rw [hstart]
    dsimp only
    split
    · rename_i hend
      rw [hend]
    · rename_i run rest hend
      rw [hend]

theorem decode_nil : decode base64 [] = [] := decode_eq []

/-- A character ahead of a shift is read as itself. -/
theorem decode_cons (h : c ≠ SHIFT) : decode base64 (c :: name) = c :: decode base64 name := by
  have hcut : cut SHIFT (c :: name) =
      (cut SHIFT name).map fun found => (c :: found.1, found.2) := if_neg h
  rw [decode_eq, decode_eq, hcut]
  cases cut SHIFT name with
  | none => rfl
  | some found =>
    dsimp only [Option.map_some]
    cases cut UNSHIFT found.2 with
    | none => rfl
    | some parts => rfl

/-- A closed shift is read as its run. -/
theorem decode_run (h : UNSHIFT ∉ run) : decode base64 (SHIFT :: run ++ UNSHIFT :: rest) =
    (decodeRun base64 run).getD (SHIFT :: run ++ [UNSHIFT]) ++ decode base64 rest := by
  have hstart : cut SHIFT (SHIFT :: run ++ UNSHIFT :: rest) = some ([], run ++ UNSHIFT :: rest) :=
    if_pos rfl
  rw [decode_eq, hstart]
  dsimp only
  rw [cut_append h]
  rfl

/-- What a run of the wire is written in. -/
theorem mem_coded (h : decodeRun base64 coded = some run) (hc : c ∈ coded) :
    c ∈ MODIFIED_ALPHABET := by
  rw [decodeRun] at h
  split at h
  · rename_i hnil
    rw [hnil] at hc
    exact absurd hc List.not_mem_nil
  · obtain ⟨bytes, hbytes, -⟩ := Option.bind_eq_some_iff.1 h
    rw [← base64.encode_decode hbytes] at hc
    exact base64.mem_alphabet hc

/-- A run that is taken is the base64 of its text. -/
theorem encode_utf16Bytes (hcoded : coded ≠ []) (h : decodeRun base64 coded = some run) :
    base64.encode (utf16Bytes run) = coded := by
  rw [decodeRun, if_neg hcoded] at h
  obtain ⟨bytes, hbytes, h⟩ := Option.bind_eq_some_iff.1 h
  split at h
  · cases h
  · rename_i heven
    rw [utf16Bytes, utf16_fromUtf16 h, bigEndian_units (Decidable.not_not.1 heven),
      base64.encode_decode hbytes]

theorem utf16Bytes_ne_nil (h : run ≠ []) : utf16Bytes run ≠ [] := by
  intro hnil
  have hback := fromUtf16_utf16 run
  rw [← units_bigEndian (run.flatMap utf16)] at hback
  change fromUtf16 (units (utf16Bytes run)) = some run at hback
  rw [hnil] at hback
  exact h (Option.some.inj hback).symm

theorem encode_ne_nil (h : bytes ≠ []) : base64.encode bytes ≠ [] := by
  intro hnil
  have hback := base64.decode_encode bytes
  rw [hnil, ← base64.encode_nil, base64.decode_encode] at hback
  exact h (Option.some.inj hback).symm

/-- The base64 of a text is taken as that text. -/
theorem decodeRun_encode (h : run ≠ []) :
    decodeRun base64 (base64.encode (utf16Bytes run)) = some run := by
  have heven : ¬ (utf16Bytes run).length % 2 ≠ 0 := by
    rw [utf16Bytes, length_bigEndian]
    omega
  rw [decodeRun, if_neg (encode_ne_nil (utf16Bytes_ne_nil h)), base64.decode_encode]
  change (if _ then none else fromUtf16 (units (utf16Bytes run))) = some run
  rw [if_neg heven, utf16Bytes, units_bigEndian, fromUtf16_utf16]

theorem alphabet_plain (h : c ∈ MODIFIED_ALPHABET) :
    c ≠ UNSHIFT ∧ c ≠ SHIFT ∧ ' ' ≤ c ∧ c ≤ '~' := by
  have hall : MODIFIED_ALPHABET.all fun c =>
      decide (c ≠ UNSHIFT ∧ c ≠ SHIFT ∧ ' ' ≤ c ∧ c ≤ '~') := by decide +kernel
  exact of_decide_eq_true (List.all_eq_true.1 hall c h)

/-- **The wire form of lawful pieces is read as their text.** -/
theorem decode_pieces (h : ∀ piece ∈ pieces, piece.Lawful base64) :
    decode base64 (pieces.flatMap Piece.wire) = pieces.flatMap Piece.text := by
  induction pieces with
  | nil => exact decode_nil
  | cons piece pieces ih =>
    obtain ⟨hpiece, hrest⟩ := List.forall_mem_cons.1 h
    rw [List.flatMap_cons, List.flatMap_cons, ← ih hrest]
    cases piece with
    | direct c =>
      have hshift : c ≠ SHIFT := of_decide_eq_true (Bool.and_eq_true_iff.1 hpiece).2
      exact decode_cons hshift
    | shift => exact decode_run List.not_mem_nil
    | run coded text =>
      obtain ⟨-, hdecode, -⟩ := hpiece
      have hopen : UNSHIFT ∉ coded := fun hin => (alphabet_plain (mem_coded hdecode hin)).1 rfl
      rw [Piece.wire, List.append_assoc, List.singleton_append, decode_run hopen, hdecode]
      rfl

/-! ## A name written -/

/-- Characters that travel in a run are held back until it ends. -/
theorem encodeLoop_shifted (h : ∀ c ∈ run, isShifted c) :
    encodeLoop base64 (run ++ rest) out bytes =
      encodeLoop base64 rest out (bytes ++ utf16Bytes run) := by
  induction run generalizing bytes with
  | nil => rw [utf16Bytes, List.flatMap_nil, List.flatMap_nil, List.nil_append, List.append_nil]
  | cons c run ih =>
    obtain ⟨hc, hrun⟩ := List.forall_mem_cons.1 h
    obtain ⟨hdirect, hshift⟩ := Bool.and_eq_true_iff.1 hc
    rw [Bool.not_eq_true'] at hdirect
    rw [List.cons_append, encodeLoop, if_neg (by rw [hdirect]; decide),
      if_neg (of_decide_eq_true hshift), ih hrun, utf16Bytes, utf16Bytes, List.flatMap_cons,
      List.flatMap_append, List.append_assoc]

/-- Ahead of a piece that is no run, the run being filled ends. -/
theorem encodeLoop_flush (hpieces : ∀ piece ∈ pieces, piece.Lawful base64)
    (hhead : ∀ piece ∈ pieces.head?, piece.isRun = false) :
    encodeLoop base64 (pieces.flatMap Piece.text) out bytes =
      encodeLoop base64 (pieces.flatMap Piece.text) (flush base64 out bytes) [] := by
  have hnone : ∀ out, flush base64 out [] = out := fun out => if_pos rfl
  cases pieces with
  | nil =>
    change flush base64 out bytes = flush base64 (flush base64 out bytes) []
    rw [hnone]
  | cons piece pieces =>
    rw [List.flatMap_cons]
    cases piece with
    | direct c =>
      have hdirect : isDirect c := hpieces _ List.mem_cons_self
      rw [Piece.text, List.singleton_append, encodeLoop, encodeLoop, if_pos hdirect, if_pos hdirect,
        hnone]
    | shift =>
      have hdirect : ¬ isDirect SHIFT := by decide
      rw [Piece.text, List.singleton_append, encodeLoop, encodeLoop, if_neg hdirect, if_neg hdirect,
        if_pos rfl, if_pos rfl, hnone]
    | run coded text =>
      have hrun := hhead _ rfl
      cases hrun

/-- **Lawful pieces are written in their wire form.** -/
theorem encode_pieces (h : LawfulPieces base64 pieces) :
    encodeLoop base64 (pieces.flatMap Piece.text) out [] = out ++ pieces.flatMap Piece.wire := by
  obtain ⟨hpieces, hchain⟩ := h
  have hnone : ∀ out, flush base64 out [] = out := fun out => if_pos rfl
  induction pieces generalizing out with
  | nil => exact (hnone out).trans (List.append_nil out).symm
  | cons piece pieces ih =>
    obtain ⟨hpiece, hrest⟩ := List.forall_mem_cons.1 hpieces
    have hnext : ∀ out, encodeLoop base64 (pieces.flatMap Piece.text) out [] =
        out ++ pieces.flatMap Piece.wire := fun _ => ih hrest (List.isChain_cons.1 hchain).2
    rw [List.flatMap_cons, List.flatMap_cons]
    cases piece with
    | direct c =>
      have hdirect : isDirect c := hpiece
      rw [Piece.text, List.singleton_append, encodeLoop, if_pos hdirect, hnone, hnext,
        List.append_assoc]
      rfl
    | shift =>
      have hdirect : ¬ isDirect SHIFT := by decide
      rw [Piece.text, List.singleton_append, encodeLoop, if_neg hdirect, if_pos rfl, hnone, hnext,
        List.append_assoc]
      rfl
    | run coded text =>
      obtain ⟨hcoded, hdecode, htext, hshifted⟩ := hpiece
      have hhead : ∀ second ∈ pieces.head?, second.isRun = false := by
        intro second hsecond
        have hsingle := (List.isChain_cons.1 hchain).1 second hsecond
        exact Bool.eq_false_iff.2 fun hrun => hsingle ⟨rfl, hrun⟩
      rw [Piece.text, encodeLoop_shifted hshifted, List.nil_append, encodeLoop_flush hrest hhead,
        hnext, flush, if_neg (utf16Bytes_ne_nil htext), encode_utf16Bytes hcoded hdecode,
        List.append_assoc, List.append_assoc]
      simp [Piece.wire]

/-- **Every text is that of lawful pieces.** -/
theorem exists_pieces (base64 : Base64) (name : Text) :
    ∃ pieces, LawfulPieces base64 pieces ∧ pieces.flatMap Piece.text = name := by
  induction name with
  | nil => exact ⟨[], ⟨fun _ h => absurd h List.not_mem_nil, List.IsChain.nil⟩, rfl⟩
  | cons c name ih =>
    obtain ⟨pieces, ⟨hpieces, hchain⟩, rfl⟩ := ih
    have hplain : ∀ piece : Piece, piece.Lawful base64 → piece.isRun = false →
        LawfulPieces base64 (piece :: pieces) := by
      intro piece hpiece hrun
      refine ⟨List.forall_mem_cons.2 ⟨hpiece, hpieces⟩, List.isChain_cons.2 ⟨?_, hchain⟩⟩
      rintro second - ⟨hfirst, -⟩
      rw [hrun] at hfirst
      cases hfirst
    by_cases hdirect : isDirect c
    · exact ⟨.direct c :: pieces, hplain (.direct c) hdirect rfl, rfl⟩
    by_cases hshift : c = SHIFT
    · subst hshift
      exact ⟨.shift :: pieces, hplain .shift trivial rfl, rfl⟩
    have hshifted : isShifted c := by
      refine Bool.and_eq_true_iff.2 ⟨?_, decide_eq_true hshift⟩
      rw [Bool.not_eq_true']
      exact Bool.eq_false_iff.2 hdirect
    have hlawful : ∀ run : Text, (∀ d ∈ run, isShifted d) →
        (Piece.run (base64.encode (utf16Bytes (c :: run))) (c :: run)).Lawful base64 := by
      intro run hrun
      have hne : c :: run ≠ [] := List.cons_ne_nil c run
      exact ⟨encode_ne_nil (utf16Bytes_ne_nil hne), decodeRun_encode hne, hne,
        List.forall_mem_cons.2 ⟨hshifted, hrun⟩⟩
    by_cases hrun : ∃ coded text rest, pieces = .run coded text :: rest
    · -- the run ahead grows by the character
      obtain ⟨coded, text, rest, rfl⟩ := hrun
      obtain ⟨hhead, hrest⟩ := List.forall_mem_cons.1 hpieces
      obtain ⟨-, -, -, htext⟩ := hhead
      obtain ⟨hnext, htail⟩ := List.isChain_cons.1 hchain
      refine ⟨.run (base64.encode (utf16Bytes (c :: text))) (c :: text) :: rest,
        ⟨List.forall_mem_cons.2 ⟨hlawful text htext, hrest⟩, List.isChain_cons.2 ⟨?_, htail⟩⟩, rfl⟩
      exact fun second hsecond => hnext second hsecond
    · refine ⟨.run (base64.encode (utf16Bytes [c])) [c] :: pieces,
        ⟨List.forall_mem_cons.2 ⟨hlawful [] (by simp), hpieces⟩,
          List.isChain_cons.2 ⟨?_, hchain⟩⟩, rfl⟩
      rintro second hsecond ⟨-, hsecondRun⟩
      cases pieces with
      | nil => cases hsecond
      | cons piece rest =>
        obtain rfl := Option.some.inj hsecond
        cases piece with
        | direct d => cases hsecondRun
        | shift => cases hsecondRun
        | run coded text => exact hrun ⟨coded, text, rest, rfl⟩

/-- What stands in the wire form of a lawful piece is printable. -/
theorem printable_wire {piece : Piece} (h : piece.Lawful base64) (hc : c ∈ piece.wire) :
    ' ' ≤ c ∧ c ≤ '~' := by
  have hends : ∀ c ∈ [SHIFT, UNSHIFT], ' ' ≤ c ∧ c ≤ '~' := by
    rintro c hc
    rcases List.mem_cons.1 hc with rfl | hc
    · decide
    · rw [List.mem_singleton.1 hc]
      decide
  cases piece with
  | direct d =>
    obtain rfl := List.mem_singleton.1 hc
    obtain ⟨hlow, hhigh⟩ := Bool.and_eq_true_iff.1 (Bool.and_eq_true_iff.1 h).1
    exact ⟨of_decide_eq_true hlow, of_decide_eq_true hhigh⟩
  | shift => exact hends c hc
  | run coded text =>
    rw [Piece.wire, List.cons_append] at hc
    rcases List.mem_cons.1 hc with rfl | hc
    · exact hends _ List.mem_cons_self
    · rcases List.mem_append.1 hc with hc | hc
      · exact (alphabet_plain (mem_coded h.2.1 hc)).2.2
      · exact hends c (List.mem_cons_of_mem _ hc)

/-- A name in canonical form is printable ASCII. -/
theorem printable_of_canonical (h : Canonical base64 name) (hc : c ∈ name) : ' ' ≤ c ∧ c ≤ '~' := by
  obtain ⟨pieces, ⟨hpieces, -⟩, rfl⟩ := h
  obtain ⟨piece, hpiece, hc⟩ := List.mem_flatMap.1 hc
  exact printable_wire (hpieces piece hpiece) hc

end

/-- **The round trip of a mailbox name.** What is encoded is decoded to the name it was, is printable
ASCII in canonical form, where `&` is the head of a shift alone, and a canonical name is the encoding of
what it is decoded to. -/
theorem encode_decode_names (base64 : Base64) :
    (∀ name, decode base64 (encode base64 name) = name) ∧
      (∀ name, (∀ c ∈ encode base64 name, ' ' ≤ c ∧ c ≤ '~') ∧ Canonical base64 (encode base64 name)) ∧
      ∀ name, Canonical base64 name → encode base64 (decode base64 name) = name := by
  have hencode : ∀ {pieces}, LawfulPieces base64 pieces →
      encode base64 (pieces.flatMap Piece.text) = pieces.flatMap Piece.wire :=
    fun h => encode_pieces h
  have hcanonical : ∀ name, Canonical base64 (encode base64 name) := by
    intro name
    obtain ⟨pieces, hpieces, rfl⟩ := exists_pieces base64 name
    exact ⟨pieces, hpieces, hencode hpieces⟩
  refine ⟨fun name => ?_, fun name => ⟨?_, hcanonical name⟩, ?_⟩
  · obtain ⟨pieces, hpieces, rfl⟩ := exists_pieces base64 name
    rw [hencode hpieces, decode_pieces hpieces.1]
  · exact fun c hc => printable_of_canonical (hcanonical name) hc
  · rintro name ⟨pieces, hpieces, rfl⟩
    rw [decode_pieces hpieces.1, hencode hpieces]

/-- Over the base64 of its specification: a name of every kind of piece. -/
theorem encode_decode_taipei :
    decode modifiedBase64 (encode modifiedBase64 "A & 台北📬".toList) = "A & 台北📬".toList :=
  (encode_decode_names modifiedBase64).1 _

example : encode modifiedBase64 "~peter/mail/台北/日本語".toList =
    "~peter/mail/&U,BTFw-/&ZeVnLIqe-".toList := by decide +kernel

end Huliho.Utf7
