import Huliho.Session.Store
import Huliho.Store.Moves
import Mathlib.Data.Finset.Sort

/-!
# What an update of an `Email/set` plans

`jmap/write/plan.rs` with the ends of `jmap/write.rs`: what an update does to the keywords and the
mailboxes of its email, read against the row before anything is sent, and what it answers once the
row is written. A folder account holds a message in one folder; on a Gmail account a label is added
or removed on the store the row lies in, entering Spam or Trash is a move, after which the row
carries that store alone, and leaving either is a move into All Mail.

A set of ids is the list its `BTreeSet` goes through, in order (`ordered`). The values of the
`HashMap` of mailbox rows come in some order, so the rows are a list wherever the code looks through
them.

What an accepted edit of a Gmail account comes to is **`labels_spec`**, one of the plans of
`Labelled`.
-/

namespace Huliho.EmailSet

/-! ## The patch -/

/-- An email as an `Email/set` finds it; no UID while the row waits for a match. -/
structure KeywordRow where
  id : EmailId
  folder : MailboxId
  uid : Option Nat
  keywords : Finset String
  mailboxes : List MailboxId
deriving DecidableEq

/-- What one update does to the keywords of its email. -/
structure KeywordEdit where
  set : List String
  clear : List String
  /-- Whether `set` is every keyword the email is left with. -/
  whole : Bool
deriving DecidableEq, Repr

/-- What one update does to the mailboxes of its email. -/
structure MailboxEdit where
  add : List MailboxId
  remove : List MailboxId
  /-- Whether `add` is every mailbox the email is left in. -/
  whole : Bool
  /-- Each mailbox a path names, with that path as the patch wrote it. -/
  named : List (MailboxId × String)
deriving DecidableEq, Repr

/-- What one update asks; no edit of the mailboxes when the patch names none. -/
structure Patch where
  keywords : KeywordEdit
  mailboxes : Option MailboxEdit
deriving DecidableEq, Repr

/-- Why one update was not written. -/
inductive SetError
  | forbidden
  | notFound
  | invalidProperties (paths : List String)
  | tooManyMailboxes
  | serverFail
  | serverUnavailable
deriving DecidableEq, Repr

def MAILBOX_IDS : String := "mailboxIds"

/-- The path the patch named the mailbox by. -/
def MailboxEdit.path (edit : MailboxEdit) (mailbox : MailboxId) : String :=
  ((edit.named.find? fun found => found.1 = mailbox).map Prod.snd).getD MAILBOX_IDS

/-- A set of texts in its order. -/
def ordered (ids : List String) : List String := ids.dedup.insertionSort (· ≤ ·)

@[simp] theorem mem_ordered {ids : List String} {id : String} : id ∈ ordered ids ↔ id ∈ ids := by
  simp [ordered]

/-- The paths of the patch that named these mailboxes, each once. -/
def invalid (edit : MailboxEdit) (mailboxes : List MailboxId) : SetError :=
  .invalidProperties (ordered (mailboxes.map edit.path))

/-! ## Plans -/

/-- The labels a message gains and loses. -/
structure Relabel where
  add : List MailboxId
  remove : List MailboxId
deriving DecidableEq, Repr

/-- What an update does to the mailboxes of its email. -/
inductive Plan
  | nothing
  /-- Gmail labels on the store the row lies in. -/
  | labels (relabel : Relabel)
  /-- A move to another folder and, into All Mail, the labels stored there afterwards. -/
  | move (target : MailboxId) (next : Option Relabel)
deriving DecidableEq, Repr

/-- The labels the plan stores, if any. -/
def Plan.relabel : Plan → Option Relabel
  | .labels relabel => some relabel
  | .move _ next => next
  | .nothing => none

section

variable (rows : List MailboxRow)

/-- The row of a mailbox. -/
def rowFor (id : MailboxId) : Option MailboxRow := rows.find? fun row => row.id = id

def isStore (id : MailboxId) : Bool := (rowFor rows id).any fun row => row.facts.store

def isAllMail (id : MailboxId) : Bool :=
  (rowFor rows id).bind (fun row => row.facts.role) = some ALL_MAIL_ROLE

/-- Whether the account holds the mailbox and it can hold mail. -/
def known (id : MailboxId) : Bool := (rowFor rows id).any fun row => row.facts.selectable

/-- Whether the account is a Gmail account. -/
def labeled : Bool := rows.any fun row => row.facts.gmailLabel.isSome

/-! ## Labels on the line -/

/-- The bridge's spelling of a system label beside the one a STORE of X-GM-LABELS writes. -/
def WRITTEN_LABELS : List (String × String) :=
  [("\\Flagged", "\\Starred"), ("\\Drafts", "\\Draft")]

/-- A label in the bridge's spelling as a STORE writes it. -/
def writtenLabel (label : String) : String :=
  ((WRITTEN_LABELS.find? fun kept => kept.1 = label).map Prod.snd).getD label

/-- The labels of these mailboxes as a STORE writes them. -/
def labelsOf (mailboxes : List MailboxId) : List String :=
  (mailboxes.filterMap fun mailbox =>
    (rowFor rows mailbox).bind fun row => row.facts.gmailLabel).map writtenLabel

/-- The bytes a label takes on a command line. -/
def labelBytes (label : String) : Option Nat :=
  (Session.wireLabel label.toList).map Session.byteLength

/-- Whether an item of that width fits a run on its own, separator included. -/
def fits (width : Nat) : Bool := width < Session.MAX_UPDATE_KEYWORD_BYTES

/-- Whether every label of the relabel fits a STORE run on its own. -/
def sendable (relabel : Relabel) : Bool :=
  [relabel.add, relabel.remove].all fun mailboxes =>
    (labelsOf rows mailboxes).all fun label => (labelBytes label).any fits

/-! ## The mailbox edit -/

/-- What the edit does to a row of a Gmail account, whose store is All Mail, Spam or Trash. -/
def labels (row : KeywordRow) (edit : MailboxEdit) (entering leaving : List MailboxId) :
    Except SetError Plan :=
  let relabel : Relabel :=
    ⟨entering.filter fun id => !isStore rows id, leaving.filter fun id => !isStore rows id⟩
  match entering.filter (isStore rows) with
  | target :: other :: rest => .error (invalid edit (target :: other :: rest))
  | [target] =>
    if isAllMail rows target then .ok (.move target (some relabel))
    -- A row of Spam or Trash carries its store alone.
    else if relabel.add ≠ [] then .error (invalid edit relabel.add)
    else .ok (.move target none)
  | [] =>
    if isAllMail rows row.folder then
      -- A message leaves All Mail for Spam or Trash alone.
      if row.folder ∈ leaving then .error (invalid edit [row.folder])
      else if relabel = ⟨[], []⟩ then .ok .nothing
      else .ok (.labels relabel)
    else if row.folder ∈ leaving then
      if relabel.add = [] then .error (invalid edit leaving)
      else
        match rows.find? fun row => row.facts.store && isAllMail rows row.id with
        | none => .error .serverUnavailable
        | some target => .ok (.move target.id (some relabel))
    else if relabel.add = [] then .ok .nothing
    else .error (invalid edit relabel.add)

/-- The mailboxes the email enters: those it is not in. -/
def entering (row : KeywordRow) (edit : MailboxEdit) : List MailboxId :=
  (ordered edit.add).filter fun id => id ∉ row.mailboxes

/-- The mailboxes it leaves: those it is in. -/
def leaving (row : KeywordRow) (edit : MailboxEdit) : List MailboxId :=
  let remove :=
    if edit.whole then (ordered row.mailboxes).filter fun id => id ∉ edit.add
    else ordered edit.remove
  remove.filter fun id => id ∈ row.mailboxes

/-- What the mailbox edit does to the row. Every mailbox it names is one the account holds that can
hold mail. On a folder account an email left in no mailbox is invalid under the paths that took it
out and one left in two has too many mailboxes. -/
def mailboxes (row : KeywordRow) (edit : MailboxEdit) : Except SetError Plan :=
  let unknown := (edit.add ++ edit.remove).filter fun id => !known rows id
  if unknown ≠ [] then .error (invalid edit unknown)
  else if labeled rows then do
    let plan ← labels rows row edit (entering row edit) (leaving row edit)
    match plan.relabel with
    | some relabel => if sendable rows relabel then pure plan else .error .serverFail
    | none => pure plan
  else
    let current := ordered row.mailboxes
    let result := ordered ((current.filter fun id => id ∉ leaving row edit) ++ entering row edit)
    match result with
    | [] => .error (invalid edit (leaving row edit))
    | [target] => if result ≠ current then .ok (.move target none) else .ok .nothing
    | _ => .error .tooManyMailboxes

/-! ## Rights -/

/-- The rights an update takes. -/
inductive Right
  | addItems
  | removeItems
  | setSeen
  | setKeywords
deriving DecidableEq, Repr

/-- The letters the right takes, all of them. -/
def Right.letters : Right → String
  | .addItems => "i"
  | .removeItems => "te"
  | .setSeen => "s"
  | .setKeywords => "w"

/-- Whether the letters a mailbox's row keeps grant the right; without letters it grants every one.
-/
def allows (letters : Option String) (right : Right) : Bool :=
  letters.all fun held => right.letters.toList.all fun letter => letter ∈ held.toList

def SEEN : String := "$seen"

/-- Whether the rights let the update run. -/
def permitted (letters : MailboxId → Option String) (row : KeywordRow) (changed : List String)
    (plan : Plan) : Bool :=
  let may (folder : MailboxId) (right : Right) := allows (letters folder) right
  let stored (relabel : Relabel) :=
    (relabel.add.all fun id => may id .addItems) && relabel.remove.all fun id => may id .removeItems
  (changed.all fun keyword => may row.folder (if keyword = SEEN then .setSeen else .setKeywords)) &&
    match plan with
    | .nothing => true
    | .labels relabel => stored relabel
    | .move target next =>
      may row.folder .removeItems && may target .addItems && next.all stored

end

/-! ## The update -/

/-- The keywords the message of this row loses under the edit. -/
def removed (edit : KeywordEdit) (row : KeywordRow) : List String :=
  if edit.whole then (row.keywords.filter fun keyword => keyword ∉ edit.set).sort (· ≤ ·)
  else edit.clear

/-- The parts of one update: the keywords it gives and takes, where it changes any, and what it does
to the mailboxes, for the message of a row. -/
structure Parts where
  uid : Nat
  keywords : Option (List String × List String)
  plan : Plan
deriving DecidableEq, Repr

/-- How many parts the update waits on. -/
def Parts.left (parts : Parts) : Nat :=
  (if parts.keywords.isSome then 1 else 0) + if parts.plan = .nothing then 0 else 1

/-- One update read against its row. -/
def update (rows : List MailboxRow) (letters : MailboxId → Option String) (row : Option KeywordRow)
    (patch : Patch) : Except SetError Parts := do
  let some row := row | .error .notFound
  let some uid := row.uid | .error .serverUnavailable
  let remove := removed patch.keywords row
  let keywords := if patch.keywords.set = [] ∧ remove = [] then none
    else some (patch.keywords.set, remove)
  let plan ← match patch.mailboxes with
    | some edit => mailboxes rows row edit
    | none => pure .nothing
  if keywords.isNone && plan = .nothing then pure ⟨uid, none, .nothing⟩
  else if permitted letters row (patch.keywords.set ++ remove) plan then pure ⟨uid, keywords, plan⟩
  else .error .forbidden

/-! ## The answer -/

/-- An email as its update should leave it. -/
structure Expected where
  mailboxes : List MailboxId
  keywords : Finset String

/-- How the update should leave the email when the server does what its patch asks and nothing more.
-/
def expect (row : KeywordRow) (patch : Patch) : Expected where
  mailboxes :=
    match patch.mailboxes with
    | none => ordered row.mailboxes
    | some edit =>
      ordered (((if edit.whole then [] else row.mailboxes).filter fun id => id ∉ edit.remove) ++
        edit.add)
  keywords :=
    ((if patch.keywords.whole then ∅ else row.keywords) \ patch.keywords.clear.toFinset) ∪
      patch.keywords.set.toFinset

/-- Where one update stands while the work runs: the parts it still waits on and the first failure,
which ends it. -/
structure Tally where
  left : Nat
  failed : Option SetError

/-- A part of the update is done. -/
def Tally.done (tally : Tally) : Tally := { tally with left := tally.left - 1 }

/-- How an update ended: its failure or done. One a session left before its turn could not be asked.
-/
def ended (tally : Tally) : Except SetError Unit :=
  match tally.failed, tally.left with
  | some error, _ => .error error
  | none, 0 => .ok ()
  | none, _ => .error .serverUnavailable

/-- The properties an answer names, as they stand. -/
structure Changed where
  mailboxIds : Option (List MailboxId)
  keywords : Option (Finset String)

/-- An update done: the properties the server changed beyond what the patch asked. A row gone or
moved elsewhere by the time it was written is not found. -/
def beyond (id : EmailId) (expected : Option Expected) (written : Option SetWritten) :
    Except SetError (Option Changed) :=
  match written with
  | none => .ok none
  | some written =>
    if id ∈ written.stale then .error .notFound
    else
      match expected, written.emails.find? fun found => found.1 = id with
      | some expected, some (_, found) =>
        let changed : Changed :=
          ⟨if SameMailboxes found.mailboxes expected.mailboxes then none else some found.mailboxes,
            if found.keywords = expected.keywords then none else some found.keywords⟩
        .ok (if changed.mailboxIds.isNone && changed.keywords.isNone then none else some changed)
      | _, _ => .ok none

/-! ## What an accepted edit comes to -/

section

variable {rows : List MailboxRow} {row : KeywordRow} {edit : MailboxEdit} {plan : Plan}

/-- A mailbox has one row. -/
theorem rowFor_of_mem {mailbox : MailboxRow} (hrows : (rows.map MailboxRow.id).Nodup)
    (hm : mailbox ∈ rows) : rowFor rows mailbox.id = some mailbox := by
  cases hf : rowFor rows mailbox.id with
  | none => exact absurd (decide_eq_true rfl) (List.find?_eq_none.1 hf mailbox hm)
  | some found =>
    have hfound := List.find?_some hf
    have hid : found.id = mailbox.id := of_decide_eq_true hfound
    rw [List.inj_on_of_nodup_map hrows (List.mem_of_find?_eq_some hf) hm hid]

/-- What the row gains and loses, the stores apart. -/
def relabelOf (rows : List MailboxRow) (entering leaving : List MailboxId) : Relabel :=
  ⟨entering.filter fun id => !isStore rows id, leaving.filter fun id => !isStore rows id⟩

/-- **What an edit does to a row of a Gmail account**: labels on a row of All Mail that stays there,
a move into one store, or nothing. -/
inductive Labelled (rows : List MailboxRow) (row : KeywordRow) (entering leaving : List MailboxId) :
    Plan → Prop
  | nothing (stores : entering.filter (isStore rows) = [])
      (keeps : if isAllMail rows row.folder then relabelOf rows entering leaving = ⟨[], []⟩
        else (relabelOf rows entering leaving).add = [])
      (stays : row.folder ∉ leaving) : Labelled rows row entering leaving .nothing
  | labels (stores : entering.filter (isStore rows) = []) (here : isAllMail rows row.folder)
      (stays : row.folder ∉ leaving) :
      Labelled rows row entering leaving (.labels (relabelOf rows entering leaving))
  | restored {target : MailboxId} (allMail : isAllMail rows target) (store : isStore rows target)
      (from_ : entering.filter (isStore rows) = [target] ∨
        (entering.filter (isStore rows) = [] ∧ ¬ isAllMail rows row.folder ∧
          row.folder ∈ leaving)) :
      Labelled rows row entering leaving (.move target (some (relabelOf rows entering leaving)))
  | stored {target : MailboxId} (stores : entering.filter (isStore rows) = [target])
      (other : ¬ isAllMail rows target) (alone : (relabelOf rows entering leaving).add = []) :
      Labelled rows row entering leaving (.move target none)

theorem labels_spec {entering leaving : List MailboxId} (hrows : (rows.map MailboxRow.id).Nodup)
    (h : labels rows row edit entering leaving = .ok plan) :
    Labelled rows row entering leaving plan := by
  unfold labels at h
  simp only at h
  split at h
  · cases h
  · rename_i target hstores
    have hstore : isStore rows target :=
      (List.mem_filter.1 (hstores ▸ List.mem_singleton_self target)).2
    split at h
    · rename_i hall
      obtain rfl := Except.ok.inj h
      exact .restored hall hstore (.inl hstores)
    · rename_i hother
      split at h
      · cases h
      · rename_i halone
        obtain rfl := Except.ok.inj h
        exact .stored hstores hother (not_not.1 halone)
  · rename_i hstores
    split at h
    · rename_i hall
      split at h
      · cases h
      · rename_i hstays
        split at h
        · rename_i hnone
          obtain rfl := Except.ok.inj h
          exact .nothing hstores (by rw [if_pos hall]; exact hnone) hstays
        · obtain rfl := Except.ok.inj h
          exact .labels hstores hall hstays
    · rename_i hother
      split at h
      · rename_i hleaves
        split at h
        · cases h
        · split at h
          · cases h
          · rename_i target htarget
            obtain rfl := Except.ok.inj h
            have hfound := List.find?_some htarget
            have hmem := List.mem_of_find?_eq_some htarget
            rw [Bool.and_eq_true] at hfound
            refine .restored hfound.2 ?_ (.inr ⟨hstores, hother, hleaves⟩)
            rw [isStore, rowFor_of_mem hrows hmem]
            exact hfound.1
      · rename_i hstays
        split at h
        · rename_i hnone
          obtain rfl := Except.ok.inj h
          exact .nothing hstores (by rw [if_neg hother]; exact hnone) hstays
        · cases h

/-- **An accepted edit** names mailboxes the account holds that can hold mail; on a Gmail account it
is what `labels` makes of it. -/
theorem mailboxes_ok (h : mailboxes rows row edit = .ok plan) :
    (∀ id ∈ edit.add ++ edit.remove, known rows id) ∧
      (labeled rows → labels rows row edit (entering row edit) (leaving row edit) = .ok plan) := by
  unfold mailboxes at h
  simp only at h
  split at h
  · cases h
  · rename_i hknown
    refine ⟨fun id hid => ?_, fun hl => ?_⟩
    · have := List.filter_eq_nil_iff.1 (not_not.1 hknown) id hid
      simpa using this
    · rw [if_pos hl, Except.bind_eq_ok] at h
      obtain ⟨found, hlabels, h⟩ := h
      rw [hlabels]
      split at h
      · split at h
        · exact h
        · cases h
      · exact h

/-- An edit of labels is one on a Gmail account. -/
theorem labeled_of_labels {relabel : Relabel}
    (h : mailboxes rows row edit = .ok (.labels relabel)) : labeled rows := by
  by_contra hc
  unfold mailboxes at h
  simp only [if_neg hc] at h
  split at h
  · cases h
  · split at h
    · cases h
    · split at h <;> cases h
    · cases h

/-- A mailbox that can hold mail is one of the rows. -/
theorem exists_of_known {id : MailboxId} (h : known rows id) :
    ∃ mailbox ∈ rows, mailbox.id = id := by
  obtain ⟨mailbox, hm, -⟩ := (Option.any_eq_true _ _).1 h
  have hfound := List.find?_some hm
  exact ⟨mailbox, List.mem_of_find?_eq_some hm, of_decide_eq_true hfound⟩

end

end Huliho.EmailSet
