import Huliho.Session.Sets

/-!
# The STORE command

`store_command` of `session/write.rs`: the flags or the labels some messages gain or lose, as one
command line. A flag goes out as one of four system flags or as an atom, a label as a system label or
quoted. Flags that go out and take no more than `MAX_UPDATE_KEYWORD_BYTES`, each with its separator,
leave the command of a full set on its line (**`storeCommand_flags`**).
-/

namespace Huliho.Session

/-- The system flags a keyword maps to. -/
def STORABLE_SYSTEM_FLAGS : List Text :=
  ["\\Seen".toList, "\\Flagged".toList, "\\Answered".toList, "\\Draft".toList]

/-- The Gmail system labels a label mailbox stands for. -/
def STORABLE_SYSTEM_LABELS : List Text :=
  ["\\Inbox".toList, "\\Starred".toList, "\\Important".toList, "\\Sent".toList, "\\Draft".toList]

def ATOM_SPECIALS : List Char := ['(', ')', '{', '%', '*', '"', '\\', ']']

def NO_FLAG : String := "a STORE names nothing or something that cannot be sent"

/-- The longest mailbox name the bridge sends. -/
def MAX_WIRE_NAME_BYTES : Nat := 4096

/-- The bytes of keywords one update may name, and the bytes of flags or labels one STORE carries, each
with its separator. -/
def MAX_UPDATE_KEYWORD_BYTES : Nat := 4096

/-- Visible ASCII. -/
def isAsciiGraphic (c : Char) : Bool := 33 ≤ c.toNat && c.toNat ≤ 126

/-- A control character. -/
def isControl (c : Char) : Bool := c.toNat ≤ 31 || (127 ≤ c.toNat && c.toNat ≤ 159)

/-- Whether a flag goes on a command line as it is. -/
def sendableFlag (flag : Text) : Bool :=
  STORABLE_SYSTEM_FLAGS.contains flag ||
    (flag ≠ [] && flag.all fun c => isAsciiGraphic c && !ATOM_SPECIALS.contains c)

/-- Whether the bridge puts the name on a command line. -/
def sendable (name : Text) : Bool :=
  byteLength name ≤ MAX_WIRE_NAME_BYTES && !name.any isControl

/-- One character inside quotes. -/
def escaped (c : Char) : Text := if c = '"' ∨ c = '\\' then ['\\', c] else [c]

/-- A name as a quoted string. -/
def quoted (name : Text) : Except SessionError Text :=
  if sendable name then .ok ('"' :: name.flatMap escaped ++ ['"'])
  else .error (.protocol "the mailbox name cannot be sent")

/-- A label as it goes on the command line of a STORE. -/
def wireLabel (label : Text) : Option Text :=
  if STORABLE_SYSTEM_LABELS.contains label then some label
  else if label = [] ∨ label.head? = some '\\' then none
  else (quoted label).toOption

inductive StoreItem
  | flags
  | labels
deriving DecidableEq

/-- One STORE: the flags or labels these messages gain, or lose. -/
structure StoreAsk where
  uids : List Nat
  flags : List Text
  add : Bool
  item : StoreItem

/-- What an ask writes, item by item; `none` for an item that cannot be sent. -/
def StoreAsk.written (ask : StoreAsk) : Option (List Text) :=
  match ask.item with
  | .flags => if ask.flags.all sendableFlag then some ask.flags else none
  | .labels => ask.flags.mapM wireLabel

def StoreItem.name : StoreItem → Text
  | .flags => "FLAGS".toList
  | .labels => "X-GM-LABELS".toList

/-- The line of a STORE. -/
def storeLine (set : Text) (add : Bool) (item : StoreItem) (written : List Text) : Text :=
  "UID STORE ".toList ++ set ++ [' ', if add then '+' else '-'] ++ item.name ++
    ".SILENT (".toList ++ [' '].intercalate written ++ [')']

def storeCommand (ask : StoreAsk) : Except SessionError Text := do
  let set ← uidSet ask.uids
  match ask.written.filter (· ≠ []) with
  | none => .error (.protocol NO_FLAG)
  | some written => fitting (storeLine set ask.add ask.item written)

/-! ## Its length -/

section

variable {c : Char} {text flag : Text} {words : List Text} {ask : StoreAsk} {set : Text}

theorem byteLength_of_ascii (h : ∀ c ∈ text, c.toNat ≤ 127) : byteLength text = text.length := by
  induction text with
  | nil => rfl
  | cons c text ih =>
    obtain ⟨hc, hrest⟩ := List.forall_mem_cons.1 h
    have hone : c.utf8Size = 1 := Char.utf8Size_eq_one_iff.2 (UInt32.le_iff_toNat_le.2 hc)
    rw [byteLength_cons, ih hrest, hone, List.length_cons, Nat.add_comm]

/-- Words with a blank between take what each takes with its separator, less one. -/
theorem byteLength_intercalate_lt (h : words ≠ []) :
    byteLength ([' '].intercalate words) + 1 = (words.map fun word => byteLength word + 1).sum := by
  induction words with
  | nil => exact absurd rfl h
  | cons word words ih =>
    by_cases hwords : words = []
    · subst hwords
      simp [List.intercalate_singleton]
    · have hblank : byteLength [' '] = 1 := rfl
      rw [List.intercalate_cons_of_ne_nil hwords, byteLength_append, byteLength_append, hblank,
        List.map_cons, List.sum_cons, ← ih hwords]
      omega

theorem byteLength_sequenceSet {uids : List Nat} (h : ∀ uid ∈ uids, uid < 2 ^ 32) :
    byteLength (sequenceSet uids) ≤ 11 * uids.length := by
  rw [byteLength_of_ascii]
  · exact length_sequenceSet h
  · intro c hc
    rcases mem_sequenceSet hc with hdigit | rfl | rfl
    · have hbounds := Bool.and_eq_true_iff.1 hdigit
      have hnine := UInt32.le_iff_toNat_le.1 (of_decide_eq_true hbounds.2)
      exact Nat.le_trans hnine (by decide)
    · decide
    · decide

/-- What a STORE of flags takes on its line beside the set and the flags. -/
theorem byteLength_storeLine (add : Bool) :
    byteLength (storeLine set add .flags words) =
      byteLength set + byteLength ([' '].intercalate words) + 27 := by
  have hhead : byteLength "UID STORE ".toList = 10 := by decide
  have hsign : byteLength [' ', if add then '+' else '-'] = 2 := by cases add <;> decide
  have hname : byteLength StoreItem.flags.name = 5 := by decide
  have hmiddle : byteLength ".SILENT (".toList = 9 := by decide
  have hend : byteLength [')'] = 1 := rfl
  unfold storeLine
  simp only [byteLength_append, hhead, hsign, hname, hmiddle, hend]
  omega

/-- **Flags that go out and keep their bound leave the command of a full set on its line.** -/
theorem storeCommand_flags (huids : ask.uids ≠ []) (hfew : ask.uids.length ≤ MAX_STORE_UIDS)
    (hsmall : ∀ uid ∈ ask.uids, uid < 2 ^ 32) (hzero : 0 ∉ ask.uids) (hitem : ask.item = .flags)
    (hflags : ask.flags ≠ []) (hsend : ∀ flag ∈ ask.flags, sendableFlag flag)
    (hwidth : (ask.flags.map fun flag => byteLength flag + 1).sum ≤ MAX_UPDATE_KEYWORD_BYTES) :
    storeCommand ask = .ok (storeLine (sequenceSet ask.uids) ask.add .flags ask.flags) ∧
      byteLength (storeLine (sequenceSet ask.uids) ask.add .flags ask.flags) ≤
        MAX_COMMAND_BYTES := by
  have hset : uidSet ask.uids = .ok (sequenceSet ask.uids) := by
    refine if_neg ?_
    rintro (hnone | hmany | hin)
    · exact huids hnone
    · exact absurd hmany (Nat.not_lt.2 hfew)
    · exact hzero hin
  have hwritten : ask.written.filter (· ≠ []) = some ask.flags := by
    rw [StoreAsk.written, hitem]
    dsimp only
    rw [if_pos (List.all_eq_true.2 hsend), Option.filter_some, if_pos (by simpa using hflags)]
  have hline : byteLength (storeLine (sequenceSet ask.uids) ask.add .flags ask.flags) ≤
      MAX_COMMAND_BYTES := by
    have hsetLength := byteLength_sequenceSet hsmall
    have hwords := byteLength_intercalate_lt hflags
    have hfull : ask.uids.length ≤ 100 := hfew
    have hroom : (ask.flags.map fun flag => byteLength flag + 1).sum ≤ 4096 := hwidth
    rw [byteLength_storeLine]
    change _ ≤ 8192
    omega
  refine ⟨?_, hline⟩
  rw [storeCommand, hset]
  change (match ask.written.filter (· ≠ []) with
    | none => Except.error (SessionError.protocol NO_FLAG)
    | some written => fitting (storeLine (sequenceSet ask.uids) ask.add ask.item written)) = _
  rw [hwritten, hitem]
  exact if_neg (Nat.not_lt.2 hline)

end

end Huliho.Session
