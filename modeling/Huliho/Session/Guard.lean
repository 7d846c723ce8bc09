import Huliho.Session.Lexer

/-!
# The guard reads a stream in chunks

`session/guard.rs`: the reader between the socket and the client library. It feeds the lexer each
chunk as it arrives and withholds the one that passes a bound, and every read after it. How the
stream is cut makes no difference to the lexer — it is a `Feeder` (**`Lexer.feed_append`**) — so the
guard answers as if it had read the stream at once (`Guarded.reads_whole`).
-/

namespace Huliho.Session

namespace Lexer

variable {lexer : Lexer} {a b : List UInt8} {left : Nat}

theorem feed_nil (lexer : Lexer) : lexer.feed [] = ⟨lexer, none⟩ := by rw [feed]

/-- Inside a literal a chunk is skipped as far as it goes. -/
theorem feed_literal (h : lexer.literalLeft = some left) (hne : a ≠ []) :
    lexer.feed a = (lexer.count (min left a.length)).andThen fun lexer =>
      (lexer.skipped left (min left a.length)).feed (a.drop left) := by
  cases a with
  | nil => exact absurd rfl hne
  | cons byte tail =>
    rw [feed]
    split
    · rename_i other hother
      obtain rfl := Option.some.inj (h.symm.trans hother)
      simp only [List.length_cons]
      congr 1
      funext lexer
      congr 1
      rcases Nat.le_total left (tail.length + 1) with hle | hle
      · rw [Nat.min_eq_left hle]
      · rw [Nat.min_eq_right hle, List.drop_eq_nil_of_le (by simp),
          List.drop_eq_nil_of_le (by simpa using hle)]
    · rename_i hnone
      rw [h] at hnone
      cases hnone

/-- Elsewhere a byte is read. -/
theorem feed_byte (h : lexer.literalLeft = none) (byte : UInt8) (tail : List UInt8) :
    lexer.feed (byte :: tail) = (lexer.byte byte).andThen fun lexer => lexer.feed tail := by
  rw [feed]
  split
  · rename_i hsome
    rw [h] at hsome
    cases hsome
  · rfl

/-! ## A count in parts -/

theorem count_stopped {n : Nat} : (lexer.count n).stopped =
    if lexer.bytes + n ≤ MAX_RESPONSE_BYTES then none else some .size := by
  unfold count
  simp only
  split
  · rename_i h
    rw [if_neg (by omega)]
  · rename_i h
    rw [if_pos (by omega)]

theorem count_state {n : Nat} : (lexer.count n).state = { lexer with bytes := lexer.bytes + n } := by
  unfold count
  simp only
  split <;> rfl

/-- A literal the chunk does not end stays open. -/
theorem literalLeft_skipped {n : Nat} (h : n < left) :
    (lexer.skipped left n).literalLeft = some (left - n) := by
  have hleft : left - n ≠ 0 := by omega
  simp [skipped, literalLeft, hleft]

/-- A literal goes on in the next chunk. -/
theorem feed_across (hlt : a.length < left) :
    ((lexer.count (min left (a ++ b).length)).andThen fun lexer =>
      (lexer.skipped left (min left (a ++ b).length)).feed ((a ++ b).drop left)).Same
    ((lexer.count a.length).andThen fun lexer => (lexer.skipped left a.length).feed b) := by
  have hboth : min left (a ++ b).length = a.length + min (left - a.length) b.length := by
    rw [List.length_append]
    omega
  have hdrop : (a ++ b).drop left = b.drop (left - a.length) := by
    rw [List.drop_append, List.drop_eq_nil_of_le (Nat.le_of_lt hlt), List.nil_append]
  rw [hboth, hdrop]
  generalize hm : min (left - a.length) b.length = m
  cases hc : (lexer.count a.length).stopped with
  | some limit =>
    have hmore : (lexer.count (a.length + m)).stopped = some limit := by
      rw [count_stopped] at hc ⊢
      split at hc
      · cases hc
      · rw [if_neg (by omega), hc]
    rw [Fed.andThen_stopped hc, Fed.andThen_stopped hmore]
    exact ⟨hmore.trans hc.symm, fun h => nomatch hmore.symm.trans h⟩
  | none =>
    have hbytes : lexer.bytes + a.length ≤ MAX_RESPONSE_BYTES := by
      rw [count_stopped] at hc
      by_contra hover
      rw [if_neg hover] at hc
      cases hc
    rw [Fed.andThen_clean hc, count_state]
    by_cases hb : b = []
    · have hzero : m = 0 := by simp [← hm, hb]
      rw [hb, hzero, Nat.add_zero, Fed.andThen_clean hc, count_state, List.drop_nil]
      exact Fed.Same.refl _
    · rw [feed_literal (literalLeft_skipped hlt) hb, hm]
      have hstopped : (({ lexer with bytes := lexer.bytes + a.length } : Lexer).skipped left
          a.length |>.count m).stopped = (lexer.count (a.length + m)).stopped := by
        rw [count_stopped, count_stopped]
        simp only [skipped, Nat.add_assoc]
      cases hmore : (lexer.count (a.length + m)).stopped with
      | some limit =>
        rw [hmore] at hstopped
        rw [Fed.andThen_stopped hmore, Fed.andThen_stopped hstopped]
        exact ⟨hmore.trans hstopped.symm, fun h => nomatch hmore.symm.trans h⟩
      | none =>
        rw [hmore] at hstopped
        rw [Fed.andThen_clean hmore, Fed.andThen_clean hstopped, count_state, count_state]
        simp only [skipped, Nat.sub_sub, Nat.add_assoc]
        exact Fed.Same.refl _

/-- **Two chunks are read as one.** -/
theorem feed_append (lexer : Lexer) (a b : List UInt8) :
    (lexer.feed (a ++ b)).Same ((lexer.feed a).andThen fun lexer => lexer.feed b) := by
  induction lexer, a using feed.induct with
  | case1 lexer =>
    rw [feed_nil]
    exact Fed.Same.refl _
  | case2 lexer byte tail left hline skip ih =>
    generalize ha : byte :: tail = a at ih
    have hne : a ≠ [] := by
      rw [← ha]
      exact List.cons_ne_nil _ _
    have hskip : skip = min left a.length := by
      rw [← ha]
      rfl
    have happend : a ++ b ≠ [] := List.append_ne_nil_of_left_ne_nil hne b
    rw [feed_literal hline hne, feed_literal hline happend, Fed.andThen_assoc]
    rcases Nat.lt_or_ge a.length left with hlt | hle
    · rw [Nat.min_eq_right (Nat.le_of_lt hlt), List.drop_eq_nil_of_le (Nat.le_of_lt hlt)]
      refine (feed_across hlt).trans ((Fed.Same.refl _).andThen fun lexer => ?_)
      rw [feed_nil]
      exact Fed.Same.refl _
    · -- The literal ends in the first chunk.
      rw [hskip, Nat.min_eq_left hle] at ih
      rw [Nat.min_eq_left hle, Nat.min_eq_left (by simp; omega),
        List.drop_append_of_le_length hle]
      exact (Fed.Same.refl _).andThen ih
  | case3 lexer byte tail hline ih =>
    rw [List.cons_append, feed_byte hline, feed_byte hline, Fed.andThen_assoc]
    exact (Fed.Same.refl _).andThen ih

/-- The lexer behind bytes it reads clean, one at a time and outside literals. -/
def cleanly (lexer : Lexer) : List UInt8 → Option Lexer
  | [] => some lexer
  | byte :: bytes =>
    match lexer.literalLeft, lexer.byte byte with
    | none, ⟨next, none⟩ => cleanly next bytes
    | _, _ => none

/-- Bytes read clean leave the rest to the lexer behind them. -/
theorem feed_cleanly {next : Lexer} (h : lexer.cleanly a = some next) :
    lexer.feed (a ++ b) = next.feed b := by
  induction a generalizing lexer with
  | nil =>
    obtain rfl := Option.some.inj h
    rfl
  | cons byte bytes ih =>
    rw [cleanly] at h
    split at h
    · rename_i read hliteral hbyte
      rw [List.cons_append, feed_byte hliteral, hbyte]
      exact ih h
    · cases h

end Lexer

/-- The lexer, to which no cut makes a difference. -/
def lexing : Feeder Lexer UInt8 Limit := ⟨Lexer.feed, Lexer.feed_nil, Lexer.feed_append⟩

/-- The byte that stops the lexer, and the chunks up to it. -/
theorem chunks_at {lexer : Lexer} {chunks : List (List UInt8)} (limit : Limit)
    (h : (lexer.feed chunks.flatten).stopped = some limit) :
    ∃ n, lexing.StopsAt lexer chunks.flatten n limit ∧
      ∀ i, (lexing.feedAll lexer (chunks.take i)).stopped =
        if (chunks.take i).flatten.length ≤ n then none else some limit := by
  obtain ⟨n, hn⟩ := lexing.exists_stopsAt h
  exact ⟨n, hn, fun i => hn.chunks _ i⟩

/-- **Chunks are read as the whole stream is**: the same bound is passed, at the same byte, or the
lexer ends in the same state. -/
theorem chunks_whole (lexer : Lexer) (chunks : List (List UInt8)) :
    (lexer.feed chunks.flatten).Same (lexing.feedAll lexer chunks) ∧
      ∀ limit, (lexer.feed chunks.flatten).stopped = some limit →
        ∃ n, lexing.StopsAt lexer chunks.flatten n limit ∧
          ∀ i, (lexing.feedAll lexer (chunks.take i)).stopped =
            if (chunks.take i).flatten.length ≤ n then none else some limit := by
  exact ⟨lexing.feedAll_flatten lexer chunks, fun limit h => chunks_at limit h⟩

/-! ## The guard -/

/-- A stream whose incoming bytes pass the lexer before the client library reads them. -/
structure Guarded where
  lexer : Lexer
  tripped : Option Limit

namespace Guarded

def new : Guarded := ⟨Lexer.start, none⟩

/-- One read that brings a chunk: the chunk, or the bound that was passed. -/
def read (guarded : Guarded) (chunk : List UInt8) : Guarded × Except Limit (List UInt8) :=
  match guarded.tripped with
  | some limit => (guarded, .error limit)
  | none =>
    let fed := guarded.lexer.feed chunk
    match fed.stopped with
    | some limit => (⟨fed.state, some limit⟩, .error limit)
    | none => (⟨fed.state, none⟩, .ok chunk)

/-- Read after read. -/
def reads (guarded : Guarded) : List (List UInt8) → Guarded × List (Except Limit (List UInt8))
  | [] => (guarded, [])
  | chunk :: chunks =>
    let answer := guarded.read chunk
    let rest := reads answer.1 chunks
    (rest.1, answer.2 :: rest.2)

/-- What a read of a chunk answers, once the stream up to its end was read. -/
def answer (stopped : Option Limit) (chunk : List UInt8) : Except Limit (List UInt8) :=
  stopped.elim (.ok chunk) .error

theorem reads_tripped {guarded : Guarded} {limit : Limit} (h : guarded.tripped = some limit)
    (chunks : List (List UInt8)) :
    (guarded.reads chunks).2 = chunks.map fun _ => .error limit := by
  induction chunks with
  | nil => rfl
  | cons chunk chunks ih =>
    have hread : guarded.read chunk = (guarded, .error limit) := by
      rw [read, h]
    rw [reads, List.map_cons, hread]
    exact congrArg _ ih

/-- **A read answers what the chunks up to its own come to**, and every read after a bound was passed
fails as that one did. -/
theorem reads_answer (lexer : Lexer) (chunks : List (List UInt8)) (i : Nat) :
    ((⟨lexer, none⟩ : Guarded).reads chunks).2[i]? = chunks[i]?.map fun chunk =>
      answer (lexing.feedAll lexer (chunks.take (i + 1))).stopped chunk := by
  induction chunks generalizing lexer i with
  | nil => rfl
  | cons chunk chunks ih =>
    rw [reads]
    cases hc : (lexer.feed chunk).stopped with
    | none =>
      have hread : (⟨lexer, none⟩ : Guarded).read chunk =
          (⟨(lexer.feed chunk).state, none⟩, .ok chunk) := by
        simp only [read, hc]
      have hfed : ∀ more, lexing.feedAll lexer (chunk :: more) =
          lexing.feedAll (lexer.feed chunk).state more := fun more => Fed.andThen_clean hc
      rw [hread, List.take_succ_cons, hfed]
      cases i with
      | zero => rfl
      | succ i => exact ih _ i
    | some limit =>
      have hread : (⟨lexer, none⟩ : Guarded).read chunk =
          (⟨(lexer.feed chunk).state, some limit⟩, .error limit) := by
        simp only [read, hc]
      have hfed : ∀ more, (lexing.feedAll lexer (chunk :: more)).stopped = some limit := by
        intro more
        have hstopped : (lexing.feed lexer chunk).stopped = some limit := hc
        rw [Feeder.feedAll, Fed.andThen_stopped hstopped, hstopped]
      rw [hread, List.take_succ_cons, hfed]
      cases i with
      | zero => rfl
      | succ i =>
        rw [List.getElem?_cons_succ, List.getElem?_cons_succ, reads_tripped rfl,
          List.getElem?_map]
        rfl

/-- **However the stream is cut, the guard passes every chunk before the byte that passes a bound**
and fails every read from that byte on. -/
theorem reads_whole (chunks : List (List UInt8)) :
    ((Lexer.start.feed chunks.flatten).stopped = none →
        (new.reads chunks).2 = chunks.map .ok) ∧
      ∀ limit, (Lexer.start.feed chunks.flatten).stopped = some limit →
        ∃ n, lexing.StopsAt Lexer.start chunks.flatten n limit ∧
          ∀ i, (new.reads chunks).2[i]? = chunks[i]?.map fun chunk =>
            answer (if (chunks.take (i + 1)).flatten.length ≤ n then none else some limit)
              chunk := by
  refine ⟨fun hclean => ?_, fun limit h => ?_⟩
  · refine List.ext_getElem? fun i => ?_
    rw [show new = ⟨Lexer.start, none⟩ from rfl, reads_answer, List.getElem?_map]
    have hsplit : chunks.flatten = (chunks.take (i + 1)).flatten ++ (chunks.drop (i + 1)).flatten :=
      by rw [← List.flatten_append, List.take_append_drop]
    rw [hsplit] at hclean
    have hfed := (lexing.feedAll_flatten Lexer.start (chunks.take (i + 1))).stopped
    rw [← hfed, lexing.clean_of_append hclean]
    rfl
  · obtain ⟨n, hn, hi⟩ := (chunks_at limit h)
    refine ⟨n, hn, fun i => ?_⟩
    rw [show new = ⟨Lexer.start, none⟩ from rfl, reads_answer, hi]

end Guarded

/-! ## What a lexer that stopped is left in -/

/-- A line that announces a literal past the bound. -/
def announced : List UInt8 := bytesOf "* X {2000000}" ++ [CR, LF]

/-- The lexer behind it, and once it skipped some bytes of the literal. -/
def inLiteral (skipped : Nat) : Lexer :=
  ⟨.data (.literal (2000000 - skipped)), 0, 15 + skipped, 15, false, .absent⟩

theorem feed_announced (body : List UInt8) :
    Lexer.start.feed (announced ++ body) = (inLiteral 0).feed body := by
  exact Lexer.feed_cleanly (by rfl)

/-- A lexer that meets the bound inside a literal counts the chunk and skips none of it. -/
theorem feed_inLiteral (skipped : Nat) {body : List UInt8} (hne : body ≠ [])
    (hbound : MAX_RESPONSE_BYTES < 15 + skipped + min (2000000 - skipped) body.length) :
    ((inLiteral skipped).feed body).stopped = some .size ∧
      ((inLiteral skipped).feed body).state.line = .data (.literal (2000000 - skipped)) := by
  have hleft : (inLiteral skipped).literalLeft = some (2000000 - skipped) := rfl
  have hstopped : ((inLiteral skipped).count (min (2000000 - skipped) body.length)).stopped =
      some .size := by
    rw [Lexer.count_stopped]
    exact if_neg (Nat.not_le.2 hbound)
  rw [Lexer.feed_literal hleft hne, Fed.andThen_stopped hstopped, Lexer.count_state]
  exact ⟨hstopped, rfl⟩

/-- **What a stopped lexer is left in depends on the cut**: here on how much of the literal came
before the chunk that passes the bound. -/
theorem stopped_state_depends : ¬ ∀ chunks : List (List UInt8),
    Lexer.start.feed chunks.flatten = lexing.feedAll Lexer.start chunks := by
  intro hall
  obtain ⟨body, hbody⟩ : ∃ body : List UInt8, body.length = MAX_RESPONSE_BYTES :=
    ⟨List.replicate MAX_RESPONSE_BYTES 0, List.length_replicate⟩
  have hlength : body.length = 1048576 := hbody
  have hne : body ≠ [] := by
    rintro rfl
    cases hlength
  have hsame := hall [announced ++ [0], body]
  have hfirst : lexing.feed Lexer.start (announced ++ [0]) = ⟨inLiteral 1, none⟩ := by
    show Lexer.start.feed (announced ++ [0]) = _
    rw [feed_announced, Lexer.feed_literal rfl (List.cons_ne_nil _ _), Fed.andThen_clean (by rfl)]
    exact Lexer.feed_nil _
  have hcut : (lexing.feedAll Lexer.start [announced ++ [0], body]).state.line =
      .data (.literal 1999999) := by
    have hpassed := feed_inLiteral 1 hne (by
      rw [hlength]
      decide)
    rw [Feeder.feedAll, hfirst, Fed.andThen_clean rfl, Feeder.feedAll]
    exact (congrArg (fun fed => fed.state.line) (Fed.andThen_stopped hpassed.1)).trans hpassed.2
  have hwhole : (Lexer.start.feed [announced ++ [0], body].flatten).state.line =
      .data (.literal 2000000) := by
    rw [List.flatten_cons, List.flatten_cons, List.flatten_nil, List.append_nil,
      List.append_assoc, feed_announced]
    refine (feed_inLiteral 0 (by simp) ?_).2
    rw [List.length_append, hlength]
    decide
  rw [hsame, hcut] at hwhole
  exact absurd hwhole (by decide)

end Huliho.Session
