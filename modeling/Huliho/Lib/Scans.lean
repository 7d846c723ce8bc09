import Mathlib.Algebra.GroupWithZero.Nat
import Mathlib.Data.List.TakeDrop
import Mathlib.Data.List.Basic

/-!
# Scanning a text

A scanner takes a piece at the head of a text or nothing. A scan goes on after each piece and, where
there is none, one character further (`Scanner.scan`). Each piece of a scan is read where it stands,
and the pieces after it are those of the rest (`Scanner.scan_split`). A text written from pieces, with
one separator between each two, reads as these pieces where each stands before what follows
(**`Scanner.scan_joined`**).
-/

namespace Huliho

variable {α κ : Type}

/-- The texts with one separator between each two. -/
def joined (separator : α) : List (List α) → List α
  | [] => []
  | [text] => text
  | text :: texts => text ++ separator :: joined separator texts

/-- What follows a text where these are written after it. -/
def following (separator : α) (texts : List (List α)) : List α :=
  if texts = [] then [] else separator :: joined separator texts

theorem joined_cons {separator : α} (text : List α) (texts : List (List α)) :
    joined separator (text :: texts) = text ++ following separator texts := by
  cases texts with
  | nil => simp [joined, following]
  | cons other texts => simp [joined, following]

/-- Texts written one after another hold their own characters and the separator. -/
theorem mem_joined {separator c : α} {texts : List (List α)} (h : c ∈ joined separator texts) :
    c = separator ∨ ∃ text ∈ texts, c ∈ text := by
  induction texts with
  | nil => exact absurd h List.not_mem_nil
  | cons text texts ih =>
    rw [joined_cons, List.mem_append, following] at h
    rcases h with h | h
    · exact .inr ⟨text, List.mem_cons_self, h⟩
    · split at h
      next => exact absurd h List.not_mem_nil
      next =>
        rcases List.mem_cons.1 h with rfl | h
        · exact .inl rfl
        · exact (ih h).imp_right fun ⟨other, hother, hc⟩ =>
            ⟨other, List.mem_cons_of_mem _ hother, hc⟩

theorem mem_following {separator c : α} {texts : List (List α)}
    (h : c ∈ following separator texts) : c = separator ∨ ∃ text ∈ texts, c ∈ text := by
  rw [following] at h
  split at h
  next => exact absurd h List.not_mem_nil
  next => exact (List.mem_cons.1 h).elim .inl mem_joined

theorem mem_following_of {separator c : α} {text : List α} {texts : List (List α)}
    (htext : text ∈ texts) (hc : c ∈ text) : c ∈ following separator texts := by
  rw [following, if_neg (List.ne_nil_of_mem htext)]
  refine List.mem_cons_of_mem _ ?_
  induction texts with
  | nil => exact absurd htext List.not_mem_nil
  | cons other texts ih =>
    rw [joined_cons, List.mem_append]
    rcases List.mem_cons.1 htext with rfl | htext
    · exact .inl hc
    · rw [following, if_neg (List.ne_nil_of_mem htext)]
      exact .inr (List.mem_cons_of_mem _ (ih htext))

/-- Texts written one after another, the last of them itself so written. -/
theorem joined_append {separator : α} {texts more : List (List α)} (h : more ≠ []) :
    joined separator (texts ++ [joined separator more]) = joined separator (texts ++ more) := by
  induction texts with
  | nil => rfl
  | cons text texts ih =>
    have hone : texts ++ [joined separator more] ≠ [] := by simp
    have hmore : texts ++ more ≠ [] := by simp [h]
    rw [List.cons_append, List.cons_append, joined_cons, joined_cons, following, following,
      if_neg hone, if_neg hmore, ih]

/-- What the texts hold of a character that is no separator. -/
theorem count_joined [BEq α] [LawfulBEq α] {separator c : α} (hc : separator ≠ c)
    (texts : List (List α)) :
    (joined separator texts).count c = (texts.map (List.count c)).sum := by
  induction texts with
  | nil => rfl
  | cons text texts ih =>
    rw [joined_cons, List.count_append, List.map_cons, List.sum_cons, following]
    split
    next hempty => rw [hempty]; rfl
    next => rw [List.count_cons_of_ne hc, ih]

/-- The piece at the head of a text, with the characters of each piece. -/
structure Scanner (α κ : Type) where
  whole : κ → List α
  next : List α → Option κ
  starts : ∀ {text : List α} {piece : κ}, next text = some piece → ∃ rest, text = whole piece ++ rest
  nonempty : ∀ {text : List α} {piece : κ}, next text = some piece → whole piece ≠ []

namespace Scanner

variable (scanner : Scanner α κ)

/-- The pieces of a text once the first `skip` characters of it are taken. -/
def scanFrom : Nat → List α → List κ
  | _, [] => []
  | skip + 1, _ :: rest => scanFrom skip rest
  | 0, c :: rest =>
    match scanner.next (c :: rest) with
    | none => scanFrom 0 rest
    | some piece => piece :: scanFrom ((scanner.whole piece).length - 1) rest

/-- Every piece of a text, in order. -/
def scan (text : List α) : List κ := scanner.scanFrom 0 text

variable {scanner} {separator : α} {text rest : List α} {piece : κ}

@[simp] theorem scan_nil : scanner.scan [] = [] := by rw [scan, scanFrom]

theorem scanFrom_eq (skip : Nat) (text : List α) :
    scanner.scanFrom skip text = scanner.scan (text.drop skip) := by
  induction skip generalizing text with
  | zero => rfl
  | succ skip ih =>
    cases text with
    | nil => rw [scanFrom, List.drop_nil, scan_nil]
    | cons c rest => rw [scanFrom, ih, List.drop_succ_cons]

theorem scan_skip (scanner : Scanner α κ) {rest : List α} {c : α}
    (h : scanner.next (c :: rest) = none) :
    scanner.scan (c :: rest) = scanner.scan rest := by
  simp only [scan, scanFrom, h]

/-- A piece that is read, and then the rest. -/
theorem scan_piece (scanner : Scanner α κ) {rest : List α} {piece : κ}
    (h : scanner.next (scanner.whole piece ++ rest) = some piece) :
    scanner.scan (scanner.whole piece ++ rest) = piece :: scanner.scan rest := by
  obtain ⟨c, more, hwhole⟩ := List.exists_cons_of_ne_nil (scanner.nonempty h)
  rw [hwhole] at h ⊢
  simp only [List.cons_append] at h ⊢
  simp only [scan, scanFrom, h, hwhole, List.length_cons, Nat.add_sub_cancel]
  rw [scanFrom_eq, List.drop_left]
  rfl

/-- **A piece of a scan** is read where it stands, and the rest is scanned after it. -/
theorem scan_split {before after : List κ} (h : scanner.scan text = before ++ piece :: after) :
    ∃ lead rest, text = lead ++ (scanner.whole piece ++ rest) ∧
      scanner.next (scanner.whole piece ++ rest) = some piece ∧ after = scanner.scan rest := by
  induction hlength : text.length using Nat.strongRecOn generalizing text before with
  | ind n ih =>
    cases text with
    | nil =>
      rw [scan_nil] at h
      exact absurd h.symm (by simp)
    | cons c rest =>
      cases hnext : scanner.next (c :: rest) with
      | none =>
        rw [scanner.scan_skip hnext] at h
        obtain ⟨lead, rest', hrest, hread, hafter⟩ :=
          ih rest.length (by rw [← hlength]; simp) h rfl
        exact ⟨c :: lead, rest', by rw [hrest, List.cons_append], hread, hafter⟩
      | some first =>
        obtain ⟨rest', hrest⟩ := scanner.starts hnext
        rw [hrest] at hnext h ⊢
        rw [scanner.scan_piece hnext] at h
        cases before with
        | nil =>
          obtain ⟨rfl, rfl⟩ := List.cons.inj h
          exact ⟨[], rest', rfl, hnext, rfl⟩
        | cons other before =>
          obtain ⟨-, hscan⟩ := List.cons.inj h
          have hpos := List.length_pos_of_ne_nil (scanner.nonempty hnext)
          have hshort : rest'.length < n := by
            rw [← hlength, hrest, List.length_append]
            omega
          obtain ⟨lead, rest'', hrest', hread, hafter⟩ := ih rest'.length hshort hscan rfl
          exact ⟨scanner.whole first ++ lead, rest'', by rw [hrest', List.append_assoc], hread,
            hafter⟩

/-- Each piece of a list and those after it. -/
theorem pairwise_of_split {R : κ → κ → Prop} {pieces : List κ}
    (h : ∀ before piece after, pieces = before ++ piece :: after → ∀ later ∈ after, R piece later) :
    pieces.Pairwise R := by
  induction pieces with
  | nil => exact .nil
  | cons piece pieces ih =>
    refine .cons (h [] piece pieces rfl) (ih fun before other after hsplit => ?_)
    exact h (piece :: before) other after (by rw [hsplit, List.cons_append])

/-! ## Written pieces -/

/-- Each piece is read where it stands once the pieces are written one after another. -/
inductive Stand (scanner : Scanner α κ) (separator : α) : List κ → Prop
  | nil : Stand scanner separator []
  | cons {piece : κ} {pieces : List κ}
      (hpiece : scanner.next (scanner.whole piece ++
        following separator (pieces.map scanner.whole)) = some piece)
      (h : Stand scanner separator pieces) : Stand scanner separator (piece :: pieces)

/-- **What is written is read back.** -/
theorem scan_joined (scanner : Scanner α κ) {separator : α}
    (hseparator : ∀ rest, scanner.next (separator :: rest) = none)
    {pieces : List κ} (h : Stand scanner separator pieces) :
    scanner.scan (joined separator (pieces.map scanner.whole)) = pieces := by
  induction h with
  | nil => exact scan_nil
  | @cons piece pieces hpiece _ ih =>
    rw [List.map_cons, joined_cons, scanner.scan_piece hpiece]
    congr 1
    by_cases hempty : pieces = []
    · rw [following, if_pos (by rw [hempty, List.map_nil]), scan_nil, hempty]
    · rw [following, if_neg (by rwa [List.map_eq_nil_iff]), scanner.scan_skip (hseparator _), ih]

end Scanner

end Huliho
