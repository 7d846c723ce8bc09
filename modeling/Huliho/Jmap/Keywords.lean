import Huliho.Lib.Packing
import Huliho.Session.Store

/-!
# The keyword updates of an `Email/set`

`jmap/write/keywords.rs`: updates that gain and lose the same keywords are one group, a group goes out
in sets of `MAX_STORE_UIDS` messages in the order of their UIDs, and the flags of a set in runs that fit
a command line. Every update is in one set, every flag in one run, and no command is refused for its
length (**`keyword_stores`**).
-/

namespace Huliho.Jmap

open Session

/-! ## Keywords -/

def SYSTEM_KEYWORDS : List (Text × Text) :=
  [("\\Seen".toList, "$seen".toList), ("\\Flagged".toList, "$flagged".toList),
    ("\\Answered".toList, "$answered".toList), ("\\Draft".toList, "$draft".toList)]

def KEYWORD_FORBIDDEN : List Char := ['(', ')', '{', ']', '%', '*', '"', '\\']

def MAX_KEYWORD_BYTES : Nat := 255

/-- Whether a character stands in a keyword. -/
def isKeywordChar (c : Char) : Bool := isAsciiGraphic c && !KEYWORD_FORBIDDEN.contains c

/-- A keyword as the rows hold it, in lower case; `none` for a text that is no keyword. -/
def canonicalKeyword (text : Text) : Option Text :=
  if text ≠ [] ∧ byteLength text ≤ MAX_KEYWORD_BYTES ∧ text.all isKeywordChar then
    some (text.map Char.toLower)
  else none

/-- A keyword of a row or of a patch: what it is read as is itself. -/
structure Keyword where
  text : Text
  canonical : canonicalKeyword text = some text
deriving DecidableEq

/-- The flag a keyword is stored as. -/
def flag (keyword : Keyword) : Text :=
  match SYSTEM_KEYWORDS.find? fun known => known.2 = keyword.text with
  | some known => known.1
  | none => keyword.text

/-! ## Groups -/

/-- What one update does to the keywords of its email. -/
structure Edit where
  set : List Keyword
  clear : List Keyword
  whole : Bool
  named : List (Keyword × Text)
deriving DecidableEq

/-- One email a command names. -/
structure Member where
  index : Nat
  id : String
  uid : UInt32
deriving DecidableEq

/-- The messages of one folder that gain and lose the same keywords. -/
structure Group where
  edit : Edit
  remove : List Keyword
  members : List Member

/-- One update of the ask: the edit, the keywords of its row and the email. -/
structure Update where
  edit : Edit
  held : List Keyword
  member : Member

/-- The keywords the message of this row loses under the edit. -/
def removed (edit : Edit) (held : List Keyword) : List Keyword :=
  if edit.whole then held.filter (· ∉ edit.set) else edit.clear

/-- Puts the member with the others that gain and lose the same. -/
def join (groups : List Group) (edit : Edit) (remove : List Keyword) (member : Member) :
    List Group :=
  match groups with
  | [] => [⟨edit, remove, [member]⟩]
  | group :: groups =>
    if group.edit = edit ∧ group.remove = remove then
      { group with members := group.members ++ [member] } :: groups
    else group :: join groups edit remove member

/-- Whether an update changes a keyword. -/
def Update.stores (update : Update) : Bool :=
  ¬ (update.edit.set = [] ∧ removed update.edit update.held = [])

/-- The groups of the updates of one folder. -/
def planned (updates : List Update) : List Group :=
  updates.foldl (fun groups update =>
    if update.stores then
      join groups update.edit (removed update.edit update.held) update.member
    else groups) []

/-! ## Sets and runs -/

/-- The loop of `runs`: the run being filled and what it takes. -/
def runsLoop (width : Text → Nat) : List Text → List Text → Nat → List (List Text)
  | [], run, _ => if run = [] then [] else [run]
  | item :: items, run, bytes =>
    if MAX_UPDATE_KEYWORD_BYTES < bytes + (width item + 1) ∧ run ≠ [] then
      run :: runsLoop width items [item] (width item + 1)
    else runsLoop width items (run ++ [item]) (bytes + (width item + 1))

/-- The items in runs of `MAX_UPDATE_KEYWORD_BYTES` at most. -/
def runs (items : List Text) (width : Text → Nat) : List (List Text) := runsLoop width items [] 0

/-- The members whose update still stands, in the order of their UIDs. -/
def stillStanding (failed : Nat → Bool) (members : List Member) : List Member :=
  (members.filter fun member => !failed member.index).insertionSort (·.uid ≤ ·.uid)

/-- The sets of a group: its members `MAX_STORE_UIDS` at a time. -/
def sets (failed : Nat → Bool) (group : Group) : List (List Member) :=
  packed MAX_STORE_UIDS (fun _ => 1) (stillStanding failed group.members)

/-- The STOREs of one set of messages: what they gain, then what they lose. -/
def commands (group : Group) (members : List Member) : List StoreAsk :=
  [(group.edit.set, true), (group.remove, false)].flatMap fun (keywords, add) =>
    (runs (keywords.map flag) byteLength).map fun flags =>
      ⟨members.map (·.uid.toNat), flags, add, .flags⟩

/-! ## What a keyword is sent as -/

section

variable {keyword : Keyword} {text read : Text}

/-- A keyword is kept as itself: lower case is read as it stands. -/
theorem canonicalKeyword_read (h : canonicalKeyword text = some read) :
    canonicalKeyword read = some read := by
  have hchar : ∀ c : Char, isKeywordChar c →
      isKeywordChar c.toLower ∧ c.toLower.toLower = c.toLower ∧ c.toLower.utf8Size = c.utf8Size := by
    intro c hc
    have hbounds := (Bool.and_eq_true_iff.1 (Bool.and_eq_true_iff.1 hc).1).2
    have hsmall : c.toNat < 127 := Nat.lt_succ_of_le (of_decide_eq_true hbounds)
    have hall : ∀ n : Fin 127, isKeywordChar (Char.ofNat n) →
        isKeywordChar (Char.ofNat n).toLower ∧
          (Char.ofNat n).toLower.toLower = (Char.ofNat n).toLower ∧
          (Char.ofNat n).toLower.utf8Size = (Char.ofNat n).utf8Size := by decide
    have hone := hall ⟨c.toNat, hsmall⟩
    rw [Char.ofNat_toNat] at hone
    exact hone hc
  rw [canonicalKeyword] at h
  split at h
  · rename_i hvalid
    obtain ⟨hne, hbytes, hchars⟩ := hvalid
    obtain rfl := Option.some.inj h
    rw [List.all_eq_true] at hchars
    have hlower : (text.map Char.toLower).map Char.toLower = text.map Char.toLower := by
      rw [List.map_map]
      exact List.map_congr_left fun c hc => (hchar c (hchars c hc)).2.1
    have hlength : byteLength (text.map Char.toLower) = byteLength text := by
      rw [byteLength, byteLength, List.map_map]
      exact congrArg List.sum (List.map_congr_left fun c hc => (hchar c (hchars c hc)).2.2)
    rw [canonicalKeyword, if_pos, hlower]
    refine ⟨by simpa using hne, by rwa [hlength], List.all_eq_true.2 fun c hc => ?_⟩
    obtain ⟨d, hd, rfl⟩ := List.mem_map.1 hc
    exact (hchar d (hchars d hd)).1
  · cases h

theorem Keyword.valid (keyword : Keyword) :
    keyword.text ≠ [] ∧ byteLength keyword.text ≤ MAX_KEYWORD_BYTES ∧
      keyword.text.all isKeywordChar := by
  have h := keyword.canonical
  rw [canonicalKeyword] at h
  split at h
  · assumption
  · cases h

/-- A keyword goes out, as a system flag or as an atom. -/
theorem sendableFlag_flag (keyword : Keyword) : sendableFlag (flag keyword) := by
  rw [flag]
  split
  · rename_i known hfind
    have hknown : ∀ known ∈ SYSTEM_KEYWORDS, sendableFlag known.1 := by decide
    exact hknown known (List.mem_of_find?_eq_some hfind)
  · obtain ⟨hne, -, hchars⟩ := keyword.valid
    rw [List.all_eq_true] at hchars
    refine Bool.or_eq_true_iff.2 (.inr (Bool.and_eq_true_iff.2 ⟨decide_eq_true hne, ?_⟩))
    refine List.all_eq_true.2 fun c hc => ?_
    obtain ⟨hgraphic, hplain⟩ := Bool.and_eq_true_iff.1 (hchars c hc)
    have hspecials : ATOM_SPECIALS ⊆ KEYWORD_FORBIDDEN := by simp [ATOM_SPECIALS, KEYWORD_FORBIDDEN]
    refine Bool.and_eq_true_iff.2 ⟨hgraphic, ?_⟩
    rw [Bool.not_eq_true', List.contains_eq_mem, decide_eq_false_iff_not] at hplain ⊢
    exact fun hin => hplain (hspecials hin)

theorem byteLength_flag_le (keyword : Keyword) :
    byteLength (flag keyword) + 1 ≤ MAX_UPDATE_KEYWORD_BYTES := by
  rw [flag]
  split
  · rename_i known hfind
    have hknown : ∀ known ∈ SYSTEM_KEYWORDS,
        byteLength known.1 + 1 ≤ MAX_UPDATE_KEYWORD_BYTES := by decide
    exact hknown known (List.mem_of_find?_eq_some hfind)
  · have hbytes : byteLength keyword.text ≤ 255 := keyword.valid.2.1
    change _ ≤ 4096
    omega

end

/-! ## Every update in one set, every flag in one run -/

section

variable {groups : List Group} {group : Group} {edit : Edit} {remove : List Keyword}
variable {member : Member} {members : List Member} {items run : List Text} {width : Text → Nat}
variable {failed : Nat → Bool} {ask : StoreAsk}

/-- What the updates of a group ask. -/
def Group.asked (group : Group) : List (Edit × List Keyword × Member) :=
  group.members.map (group.edit, group.remove, ·)

/-- What an update asks. -/
def Update.asked (update : Update) : Edit × List Keyword × Member :=
  (update.edit, removed update.edit update.held, update.member)

theorem join_asked (groups : List Group) :
    ((join groups edit remove member).flatMap Group.asked).Perm
      (groups.flatMap Group.asked ++ [(edit, remove, member)]) := by
  induction groups with
  | nil => exact .refl _
  | cons group groups ih =>
    rw [join]
    split
    · rename_i hsame
      obtain ⟨rfl, rfl⟩ := hsame
      rw [List.flatMap_cons, List.flatMap_cons, Group.asked, List.map_append, List.append_assoc,
        List.append_assoc]
      exact .append_left _ List.perm_append_comm
    · rw [List.flatMap_cons, List.flatMap_cons, List.append_assoc]
      exact .append_left _ ih

/-- **Every update that changes a keyword is in one group, with what it asks.** -/
theorem planned_asked (updates : List Update) :
    ((planned updates).flatMap Group.asked).Perm
      ((updates.filter Update.stores).map Update.asked) := by
  have hfold : ∀ (updates : List Update) (groups : List Group),
      ((updates.foldl (fun groups update =>
        if update.stores then
          join groups update.edit (removed update.edit update.held) update.member
        else groups) groups).flatMap Group.asked).Perm
      (groups.flatMap Group.asked ++ (updates.filter Update.stores).map Update.asked) := by
    intro updates
    induction updates with
    | nil => exact fun groups => .of_eq (List.append_nil _).symm
    | cons update updates ih =>
      intro groups
      rw [List.foldl_cons]
      refine (ih _).trans ?_
      by_cases hstores : update.stores
      · rw [if_pos hstores, List.filter_cons_of_pos hstores, List.map_cons]
        refine ((join_asked groups).append_right _).trans (.of_eq ?_)
        rw [List.append_assoc, List.singleton_append]
        rfl
      · rw [if_neg hstores, List.filter_cons_of_neg hstores]
  exact hfold updates []

/-- The count the loop keeps is what the run takes. -/
theorem runsLoop_eq (items run : List Text) :
    runsLoop width items run ((run.map fun item => width item + 1).sum) =
      packing MAX_UPDATE_KEYWORD_BYTES (fun item => width item + 1) items run := by
  induction items generalizing run with
  | nil => rfl
  | cons item items ih =>
    have hone := ih [item]
    have hmore := ih (run ++ [item])
    rw [List.map_singleton, List.sum_singleton] at hone
    rw [List.map_append, List.sum_append, List.map_singleton, List.sum_singleton] at hmore
    rw [runsLoop, packing, hone, hmore]

theorem runs_eq (items : List Text) (width : Text → Nat) :
    runs items width = packed MAX_UPDATE_KEYWORD_BYTES (fun item => width item + 1) items :=
  runsLoop_eq items []

theorem mem_stillStanding : member ∈ stillStanding failed members ↔
    member ∈ members ∧ failed member.index = false := by
  rw [stillStanding, (List.perm_insertionSort _ _).mem_iff, List.mem_filter, Bool.not_eq_true']

/-- The commands of a set name its messages, and together every flag once, in order. -/
theorem commands_asked (group : Group) (members : List Member) :
    ((commands group members).flatMap fun ask => ask.flags.map (ask.add, ·)) =
      group.edit.set.map (true, flag ·) ++ group.remove.map (false, flag ·) := by
  have hruns : ∀ (keywords : List Keyword) (add : Bool),
      ((runs (keywords.map flag) byteLength).map fun flags =>
        StoreAsk.mk (members.map (·.uid.toNat)) flags add .flags).flatMap
          (fun ask => ask.flags.map (ask.add, ·)) = keywords.map (add, flag ·) := by
    intro keywords add
    rw [List.flatMap_map]
    change (runs (keywords.map flag) byteLength).flatMap (List.map (add, ·)) = _
    rw [List.flatMap_def, ← List.map_flatten, runs_eq, flatten_packed, List.map_map]
    rfl
  rw [commands, List.flatMap_cons, List.flatMap_singleton, List.flatMap_append]
  exact congrArg₂ _ (hruns _ _) (hruns _ _)

/-- What a command of a set carries: flags that go out, within the bound of one STORE. -/
theorem commands_sound (h : ask ∈ commands group members) :
    ask.uids = members.map (·.uid.toNat) ∧ ask.item = .flags ∧ ask.flags ≠ [] ∧
      (∀ flag ∈ ask.flags, sendableFlag flag) ∧
      (ask.flags.map fun flag => byteLength flag + 1).sum ≤ MAX_UPDATE_KEYWORD_BYTES := by
  obtain ⟨⟨keywords, add⟩, -, h⟩ := List.mem_flatMap.1 h
  obtain ⟨flags, hflags, rfl⟩ := List.mem_map.1 h
  rw [runs_eq] at hflags
  have hfits : ∀ item ∈ keywords.map flag, byteLength item + 1 ≤ MAX_UPDATE_KEYWORD_BYTES := by
    intro item hitem
    obtain ⟨keyword, -, rfl⟩ := List.mem_map.1 hitem
    exact byteLength_flag_le keyword
  refine ⟨rfl, rfl, packed_ne_nil hflags, fun item hitem => ?_, sum_packed_le hfits hflags⟩
  obtain ⟨keyword, -, rfl⟩ := List.mem_map.1 (subset_packed hflags hitem)
  exact sendableFlag_flag keyword

/-- A set holds a message and `MAX_STORE_UIDS` at most. -/
theorem sets_sound (h : members ∈ sets failed group) :
    members ≠ [] ∧ members.length ≤ MAX_STORE_UIDS := by
  have hsum := sum_packed_le (fun _ _ => (by decide : 1 ≤ MAX_STORE_UIDS)) h
  rw [List.map_const', List.sum_replicate_nat, Nat.mul_one] at hsum
  exact ⟨packed_ne_nil h, hsum⟩

end

/-- **The STOREs of the keyword updates.** Every update that changes a keyword is in one group with what
it asks, the sets of a group are its standing members in the order of their UIDs, and the commands of a
set name every flag once, in order, over exactly the UIDs of its messages. A command is on its line:
one that is not sent names a UID of zero. -/
theorem keyword_stores (updates : List Update) (failed : Nat → Bool) :
    ((planned updates).flatMap Group.asked).Perm
        ((updates.filter Update.stores).map Update.asked) ∧
      ∀ group ∈ planned updates,
        (sets failed group).flatten = stillStanding failed group.members ∧
        ∀ members ∈ sets failed group,
          ((commands group members).flatMap fun ask => ask.flags.map (ask.add, ·)) =
            group.edit.set.map (true, flag ·) ++ group.remove.map (false, flag ·) ∧
          ∀ ask ∈ commands group members,
            ask.flags ≠ [] ∧
            (∀ uid, Denotes (sequenceSet ask.uids) uid ↔ ∃ member ∈ members, member.uid.toNat = uid) ∧
            ((0 ∈ ask.uids ∧ storeCommand ask = .error (.protocol NO_MESSAGE)) ∨
              storeCommand ask =
                  .ok (storeLine (sequenceSet ask.uids) ask.add .flags ask.flags) ∧
                byteLength (storeLine (sequenceSet ask.uids) ask.add .flags ask.flags) ≤
                  MAX_COMMAND_BYTES) := by
  refine ⟨planned_asked updates, fun group _ => ⟨flatten_packed _, fun members hset => ?_⟩⟩
  refine ⟨commands_asked group members, fun ask hask => ?_⟩
  obtain ⟨hne, hfew⟩ := sets_sound hset
  obtain ⟨huids, hitem, hflags, hsend, hwidth⟩ := commands_sound hask
  refine ⟨hflags, fun uid => ?_, ?_⟩
  · rw [readSet_sequenceSet, huids, List.mem_map]
  · by_cases hzero : 0 ∈ ask.uids
    · refine .inl ⟨hzero, ?_⟩
      have hset : uidSet ask.uids = .error (.protocol NO_MESSAGE) := if_pos (.inr (.inr hzero))
      rw [storeCommand, hset]
      rfl
    · refine .inr (storeCommand_flags ?_ ?_ ?_ hzero hitem hflags hsend hwidth)
      · rwa [huids, ne_eq, List.map_eq_nil_iff]
      · rwa [huids, List.length_map]
      · intro uid huid
        rw [huids] at huid
        obtain ⟨member, -, rfl⟩ := List.mem_map.1 huid
        exact member.uid.toNat_lt

end Huliho.Jmap
