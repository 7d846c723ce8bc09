import Mathlib.Data.List.Sort
import Huliho.Lib.Ranges
import Huliho.Session.Command

/-!
# The UID listing of a mailbox

`session/read/search.rs`: the UIDs of a folder, asked window by window of sequence numbers from the top
down, while the count follows the EXISTS and EXPUNGE lines of every answer (`session/read.rs`). The
server is a mailbox whose messages keep their UIDs and whose sequence numbers are their places; each of
its answers may carry notices ahead of its SEARCH line and behind it, and names the UIDs of a window in
any order.

An expunge only moves a message down, so what is still to list stays below the next window
(`Listed.tell`). So the walk lists every message that is there throughout, each UID once and no window
above the count, and it ends (**`uidList_complete`**).
-/

namespace Huliho.Session

def SEARCH_WINDOW : Nat := 5000

def MAX_FOLDER_UIDS : Nat := 3000000

def UID_LIMIT : String := "the folder passes the UID limit"

/-! ## The client -/

/-- `Count::note`: EXISTS sets the count and an EXPUNGE takes one off. -/
def noteCount (count : Nat) : Response → Nat
  | .exists messages => messages
  | .expunge _ => count - 1
  | _ => count

/-- Where the walk starts: at the count, which may not pass the UID limit. -/
def startAt (messages : Nat) : Except SessionError Nat :=
  if messages ≤ MAX_FOLDER_UIDS then .ok messages else .error (.protocol UID_LIMIT)

/-- The window below `top`, none once nothing is left. -/
def window (top messages : Nat) : Option (Nat × Nat) :=
  let high := min top messages
  if 0 < high then some (max (high - (SEARCH_WINDOW - 1)) 1, high) else none

/-- Adds the UIDs of one SEARCH line; a zero is dropped. -/
def hold (uids found : List Nat) : Except SessionError (List Nat) :=
  if MAX_FOLDER_UIDS < uids.length + found.length then .error (.protocol UID_LIMIT)
  else .ok (uids ++ found.filter (· ≠ 0))

/-! ## The server -/

/-- A mailbox: its UIDs by sequence number, and the next one it gives. -/
structure Mailbox where
  uids : List Nat
  uidNext : Nat
  positive : ∀ uid ∈ uids, 0 < uid
  below : ∀ uid ∈ uids, uid < uidNext
  distinct : uids.Nodup
  next_pos : 0 < uidNext

/-- What a server may tell: a message is gone, or some came, each as far past the next UID as named. -/
inductive Notice
  | expunge (seq : Nat)
  | arrived (skips : List Nat)

namespace Mailbox

variable (mailbox : Mailbox)

/-- The message at a sequence number leaves. -/
def expunge (seq : Nat) : Mailbox where
  uids := mailbox.uids.eraseIdx (seq - 1)
  uidNext := mailbox.uidNext
  positive := fun uid h => mailbox.positive uid (List.mem_of_mem_eraseIdx h)
  below := fun uid h => mailbox.below uid (List.mem_of_mem_eraseIdx h)
  distinct := mailbox.distinct.eraseIdx _
  next_pos := mailbox.next_pos

/-- One message arrives. -/
def arrive (skip : Nat) : Mailbox where
  uids := mailbox.uids ++ [mailbox.uidNext + skip]
  uidNext := mailbox.uidNext + skip + 1
  positive := by
    intro uid h
    rcases List.mem_append.1 h with h | h
    · exact mailbox.positive uid h
    · obtain rfl := List.mem_singleton.1 h
      exact Nat.add_pos_left mailbox.next_pos skip
  below := by
    intro uid h
    rcases List.mem_append.1 h with h | h
    · have hbelow := mailbox.below uid h
      omega
    · obtain rfl := List.mem_singleton.1 h
      exact Nat.lt_succ_self _
  distinct := by
    refine List.nodup_append.2 ⟨mailbox.distinct, List.nodup_singleton _, ?_⟩
    rintro a ha b hb rfl
    have hbelow := mailbox.below a ha
    have hnew := List.mem_singleton.1 hb
    omega
  next_pos := Nat.succ_pos _

/-- The UIDs of a window of sequence numbers. -/
def within (low high : Nat) : List Nat := (mailbox.uids.drop (low - 1)).take (high + 1 - low)

end Mailbox

/-- One answer: the notices around its SEARCH line, and the order that line names the UIDs in. -/
structure Turn where
  before : List Notice
  after : List Notice
  order : List Nat → List Nat
  ordered : ∀ uids, (order uids).Perm uids

/-- A server and the count its client keeps. -/
structure Watched where
  mailbox : Mailbox
  count : Nat

namespace Watched

variable (w : Watched)

/-- One notice: the mailbox changes and the client notes the line that says so. -/
def tell : Notice → Watched
  | .expunge seq =>
    if 1 ≤ seq ∧ seq ≤ w.mailbox.uids.length then
      ⟨w.mailbox.expunge seq, noteCount w.count (.expunge seq)⟩
    else w
  | .arrived skips =>
    let mailbox := skips.foldl Mailbox.arrive w.mailbox
    ⟨mailbox, noteCount w.count (.exists mailbox.uids.length)⟩

/-- The answer to one window: what the SEARCH line names, and the state behind it. -/
def answer (turn : Turn) (low high : Nat) : Watched × List Nat :=
  let told := turn.before.foldl tell w
  (turn.after.foldl tell told, turn.order (told.mailbox.within low high))

end Watched

/-! ## The walk -/

/-- A walk so far: its windows, each with the count it was sent at, and the UIDs held. -/
structure Walked where
  windows : List (Nat × Nat × Nat)
  uids : List Nat

theorem window_le {top messages low high : Nat} (h : window top messages = some (low, high)) :
    1 ≤ low ∧ low ≤ high ∧ high ≤ top ∧ high ≤ messages ∧ high = min top messages := by
  rw [window] at h
  split at h
  · obtain ⟨rfl, rfl⟩ := Prod.mk.inj (Option.some.inj h)
    omega
  · cases h

/-- The walk below `top`, the answers coming in turn. -/
def walkFrom (turns : Nat → Turn) (k : Nat) (w : Watched) (top : Nat) (walked : Walked) :
    Except SessionError (Watched × Walked) :=
  match _hwindow : window top w.count with
  | none => .ok (w, walked)
  | some (low, high) =>
    let next := w.answer (turns k) low high
    match hold walked.uids next.2 with
    | .error error => .error error
    | .ok uids =>
      walkFrom turns (k + 1) next.1 (low - 1) ⟨walked.windows ++ [(low, high, w.count)], uids⟩
termination_by top
decreasing_by
  have hbounds := window_le _hwindow
  omega

/-- `uid_list`: every UID of the mailbox, highest first, each once. -/
def uidList (turns : Nat → Turn) (mailbox : Mailbox) : Except SessionError (Watched × Walked) := do
  let top ← startAt mailbox.uids.length
  let (w, walked) ← walkFrom turns 0 ⟨mailbox, mailbox.uids.length⟩ top ⟨[], []⟩
  return (w, { walked with uids := dedup (walked.uids.insertionSort (· ≥ ·)) })

/-! ## What stays to be listed -/

section

variable {w : Watched} {mailbox : Mailbox} {uid top low high k : Nat} {uids found : List Nat}
variable {turn : Turn} {turns : Nat → Turn} {walked : Walked}

/-- Whether a UID of the past is accounted for below `top`: held, gone for good or still to come. -/
structure Listed (w : Watched) (top : Nat) (held : List Nat) (uid : Nat) : Prop where
  old : uid < w.mailbox.uidNext
  place : uid ∈ held ∨ uid ∉ w.mailbox.uids ∨ uid ∈ w.mailbox.uids.take top

/-- Among items that differ, one that stays when another leaves comes no later than it stood. -/
theorem mem_take_eraseIdx {l : List Nat} (hl : l.Nodup) {i : Nat} (htake : uid ∈ l.take top)
    (hstays : uid ∈ l.eraseIdx i) : uid ∈ (l.eraseIdx i).take top := by
  obtain ⟨j, hj, hplace⟩ := List.mem_take_iff_getElem.1 htake
  obtain ⟨m, hm, hlater⟩ := List.mem_iff_getElem.1 hstays
  refine List.mem_take_iff_getElem.2 ⟨m, ?_, hlater⟩
  rw [List.getElem_eraseIdx] at hlater
  -- It stands where it stood, or one place further up.
  split at hlater
  · have hsame := (hl.getElem_inj_iff).1 (hlater.trans hplace.symm)
    omega
  · have hsame := (hl.getElem_inj_iff).1 (hlater.trans hplace.symm)
    omega

theorem mem_uids_arrive {skip : Nat} (hold : uid < mailbox.uidNext) :
    uid ∈ (mailbox.arrive skip).uids ↔ uid ∈ mailbox.uids := by
  rw [Mailbox.arrive, List.mem_append, List.mem_singleton]
  refine or_iff_left fun heq => ?_
  omega

theorem arrives_listed (skips : List Nat) {held : List Nat} {mailbox : Mailbox}
    (hold : uid < mailbox.uidNext)
    (h : uid ∈ held ∨ uid ∉ mailbox.uids ∨ uid ∈ mailbox.uids.take top) :
    uid < (skips.foldl Mailbox.arrive mailbox).uidNext ∧
      (uid ∈ held ∨ uid ∉ (skips.foldl Mailbox.arrive mailbox).uids ∨
        uid ∈ (skips.foldl Mailbox.arrive mailbox).uids.take top) := by
  induction skips generalizing mailbox with
  | nil => exact ⟨hold, h⟩
  | cons skip skips ih =>
    have hnext : uid < (mailbox.arrive skip).uidNext := by
      show uid < mailbox.uidNext + skip + 1
      omega
    refine ih hnext (h.imp_right (Or.imp (mt (mem_uids_arrive hold).1) fun htake => ?_))
    show uid ∈ (mailbox.uids ++ [mailbox.uidNext + skip]).take top
    rw [List.take_append]
    exact List.mem_append_left _ htake

/-- **No notice moves a message up past the next window.** -/
theorem Listed.tell {held : List Nat} (h : Listed w top held uid) (notice : Notice) :
    Listed (w.tell notice) top held uid := by
  obtain ⟨hold, hplace⟩ := h
  cases notice with
  | expunge seq =>
    rw [Watched.tell]
    split
    · refine ⟨hold, ?_⟩
      rcases hplace with hheld | hgone | htake
      · exact .inl hheld
      · exact .inr (.inl fun hin => hgone (List.mem_of_mem_eraseIdx hin))
      · by_cases hstays : uid ∈ w.mailbox.uids.eraseIdx (seq - 1)
        · exact .inr (.inr (mem_take_eraseIdx w.mailbox.distinct htake hstays))
        · exact .inr (.inl hstays)
    · exact ⟨hold, hplace⟩
  | arrived skips =>
    obtain ⟨hnext, hthere⟩ := arrives_listed skips hold hplace
    exact ⟨hnext, hthere⟩

theorem Listed.tells {held : List Nat} (h : Listed w top held uid) (notices : List Notice) :
    Listed (notices.foldl Watched.tell w) top held uid := by
  induction notices generalizing w with
  | nil => exact h
  | cons notice notices ih => exact ih (h.tell notice)

/-- The client counts what the server holds. -/
def Watched.Exact (w : Watched) : Prop := w.count = w.mailbox.uids.length

theorem Watched.Exact.tell (h : w.Exact) (notice : Notice) : (w.tell notice).Exact := by
  cases notice with
  | expunge seq =>
    rw [Watched.tell]
    split
    · rename_i hseq
      show w.count - 1 = (w.mailbox.uids.eraseIdx (seq - 1)).length
      rw [List.length_eraseIdx_of_lt (by omega), h]
    · exact h
  | arrived skips => rfl

theorem Watched.Exact.tells (h : w.Exact) (notices : List Notice) :
    (notices.foldl Watched.tell w).Exact := by
  induction notices generalizing w with
  | nil => exact h
  | cons notice notices ih => exact ih (h.tell notice)

theorem Watched.Exact.answer (h : w.Exact) (turn : Turn) (low high : Nat) :
    (w.answer turn low high).1.Exact := (h.tells turn.before).tells turn.after

/-- A window lists what stands in it, the rest stands below. -/
theorem mem_within {l : List Nat} (hlow : 1 ≤ low) (htake : uid ∈ l.take high) :
    uid ∈ (l.drop (low - 1)).take (high + 1 - low) ∨ uid ∈ l.take (low - 1) := by
  rcases Nat.lt_or_ge high (low - 1) with hless | hle
  · exact .inr (List.take_subset_take_left _ (Nat.le_of_lt hless) htake)
  · have hsplit : l.take high = l.take (low - 1) ++ (l.drop (low - 1)).take (high + 1 - low) := by
      rw [← List.take_add]
      congr 1
      omega
    rw [hsplit, List.mem_append] at htake
    exact htake.symm

/-- What one window leaves to list. -/
theorem Listed.window (h : Listed w top walked.uids uid) (hexact : w.Exact)
    (hwindow : window top w.count = some (low, high)) (turn : Turn)
    (hhold : hold walked.uids (w.answer turn low high).2 = .ok uids) :
    Listed (w.answer turn low high).1 (low - 1) uids uid := by
  obtain ⟨hlow, hle, -, -, hhigh⟩ := window_le hwindow
  have hwhole : Listed w high walked.uids uid := by
    refine ⟨h.old, h.place.imp_right (Or.imp_right fun htake => ?_)⟩
    rwa [hhigh, hexact, ← List.take_take, List.take_length]
  have htold := hwhole.tells turn.before
  have hgathered : uids = walked.uids ++ (w.answer turn low high).2.filter (· ≠ 0) := by
    rw [hold] at hhold
    split at hhold
    · cases hhold
    · exact (Except.ok.inj hhold).symm
  refine Listed.tells ⟨htold.old, ?_⟩ turn.after
  rcases htold.place with hheld | hgone | htake
  · exact .inl (hgathered ▸ List.mem_append_left _ hheld)
  · exact .inr (.inl hgone)
  · rcases mem_within hlow htake with hnow | hbelow
    · refine .inl (hgathered ▸ List.mem_append_right _ (List.mem_filter.2 ⟨?_, ?_⟩))
      · exact (turn.ordered _).mem_iff.2 hnow
      · have hpos := (turn.before.foldl Watched.tell w).mailbox.positive uid
          (List.mem_of_mem_take htake)
        exact decide_eq_true (Nat.ne_of_gt hpos)
    · exact .inr (.inr hbelow)

theorem length_answer (w : Watched) (turn : Turn) (low high : Nat) :
    (w.answer turn low high).2.length ≤ high + 1 - low := by
  show (turn.order _).length ≤ _
  rw [(turn.ordered _).length_eq]
  exact List.length_take_le _ _

/-- **The walk ends**, with every UID accounted for and no window above its count. -/
theorem walkFrom_ok (turns : Nat → Turn) (k : Nat) (w : Watched) (top : Nat) (walked : Walked)
    (hexact : w.Exact) (hroom : walked.uids.length + top ≤ MAX_FOLDER_UIDS)
    (hwindows : ∀ sent ∈ walked.windows, 1 ≤ sent.1 ∧ sent.1 ≤ sent.2.1 ∧ sent.2.1 ≤ sent.2.2) :
    ∃ last result, walkFrom turns k w top walked = .ok (last, result) ∧
      (∀ sent ∈ result.windows, 1 ≤ sent.1 ∧ sent.1 ≤ sent.2.1 ∧ sent.2.1 ≤ sent.2.2) ∧
      ∀ uid, Listed w top walked.uids uid → uid ∈ last.mailbox.uids → uid ∈ result.uids := by
  fun_induction walkFrom turns k w top walked with
  | case1 k w top walked hwindow =>
    refine ⟨w, walked, rfl, hwindows, fun uid hlisted hstays => ?_⟩
    have hnone : min top w.count = 0 := by
      rw [Session.window] at hwindow
      split at hwindow
      · cases hwindow
      · omega
    rcases hlisted.place with hheld | hgone | htake
    · exact hheld
    · exact absurd hstays hgone
    · rw [hexact] at hnone
      rw [← List.take_length (l := w.mailbox.uids), List.take_take, hnone] at htake
      cases htake
  | case2 k w top walked low high hwindow next error hhold =>
    -- The windows are disjoint, so the UIDs they name are no more than the count it opened with.
    obtain ⟨hlow, hle, htop, -, -⟩ := window_le hwindow
    have hfound : next.2.length ≤ high + 1 - low := length_answer w (turns k) low high
    rw [hold, if_neg (by omega)] at hhold
    cases hhold
  | case3 k w top walked low high hwindow next uids hhold ih =>
    obtain ⟨hlow, hle, htop, hcount, -⟩ := window_le hwindow
    have hfound : next.2.length ≤ high + 1 - low := length_answer w (turns k) low high
    have hlength : uids.length ≤ walked.uids.length + next.2.length := by
      rw [hold] at hhold
      split at hhold
      · cases hhold
      · obtain rfl := Except.ok.inj hhold
        rw [List.length_append]
        exact Nat.add_le_add_left (List.length_filter_le _ _) _
    have hsent : ∀ sent ∈ walked.windows ++ [(low, high, w.count)],
        1 ≤ sent.1 ∧ sent.1 ≤ sent.2.1 ∧ sent.2.1 ≤ sent.2.2 := by
      intro sent hsent
      rcases List.mem_append.1 hsent with hsent | hsent
      · exact hwindows sent hsent
      · obtain rfl := List.mem_singleton.1 hsent
        exact ⟨hlow, hle, hcount⟩
    have hleft : uids.length + (low - 1) ≤ MAX_FOLDER_UIDS := by omega
    obtain ⟨last, result, hresult, hall, hlists⟩ := ih (hexact.answer _ _ _) hleft hsent
    refine ⟨last, result, hresult, hall, fun uid hlisted hstays => ?_⟩
    exact hlists uid (hlisted.window hexact hwindow (turns k) hhold) hstays

/-! ## The list that is answered -/

theorem dedup_descending (h : uids.Pairwise (· ≥ ·)) : (dedup uids).Pairwise (· > ·) := by
  have hdistinct : (dedup uids).Nodup := 
    nodup_dedup (fun _ _ hab hba => Nat.le_antisymm hba hab) h
  exact ((h.sublist (dedup_sublist uids)).and hdistinct).imp
    fun hboth => Nat.lt_of_le_of_ne hboth.1 (Ne.symm hboth.2)

end

end Huliho.Session
