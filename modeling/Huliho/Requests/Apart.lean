import Huliho.Requests.Order

/-!
# What a call shows of the writes behind it

Two runs of one request that differ in what the writes behind a call do: **`writes_apart`**. Up to
the first of these writes the runs are one. The round it runs in began with a row of writes, and the
calls of the row run again behind it: a call that sets emails answers its outcome alone and answers
the same (`run_email`), while one that sets mailboxes shows the rows as the whole row of writes left
them: **`renamed_behind`**.
-/

namespace Huliho.Requests

open References (Fields Invocation MethodError)

variable {K : Kinds} {σ : Type} [DecidableEq K.EmailId] {worker other : Worker K σ}
  {methods : Methods K σ} {capabilities : Using} {noBodies : K.Bodies} {request : Request}
  {last index : Nat} {needs : List (Nat × Need K)} {p q : Fetching K σ} {r s : Running K σ}

/-- The workers differ at most in what the writes of the calls behind `last` do. -/
structure DifferBehind (last : Nat) (worker other : Worker K σ) : Prop where
  refresh : other.refresh = worker.refresh
  write : ∀ i ≤ last, other.write i = worker.write i
  folders : ∀ i ≤ last, other.folders i = worker.folders i
  submit : ∀ i ≤ last, other.submit i = worker.submit i
  previews : other.previews = worker.previews
  bodies : other.bodies = worker.bodies
  search : other.search = worker.search

/-- Every write of the round's row but its last sets emails. -/
def EmailsAhead (needs : List (Nat × Need K)) : Prop :=
  ∀ next, needs.head?.map Prod.fst = some next →
    ∀ entry ∈ (rowFrom next needs).dropLast, ∃ ask, entry.2 = .write ask

/-! ## Two rounds -/

/-- A need that is no write behind `last` in its row does the same to both. -/
theorem fetchNeed_same (h : DifferBehind last worker other) {entry : Nat × Need K}
    (hentry : entry.2.isWrite = true → p.row = some entry.1 → entry.1 ≤ last) :
    fetchNeed other p entry = fetchNeed worker p entry := by
  obtain ⟨index, need⟩ := entry
  by_cases hrow : need.isWrite = true ∧ p.row = some index
  · have hle := hentry hrow.1 hrow.2
    cases need <;> simp only [fetchNeed, h.write _ hle, h.folders _ hle, h.submit _ hle]
  · have hout : (need.isWrite && decide (p.row = some index)) = false := by
      rw [Bool.eq_false_iff, Ne, Bool.and_eq_true, decide_eq_true_eq]
      exact hrow
    cases need <;> simp only [Need.isWrite, Bool.true_and, Bool.false_and] at hout <;>
      simp [fetchNeed, hout, Need.isWrite]

/-- Two loops over one round are the same, or meet a write behind `last` in their row. -/
theorem fetchLoop_same (h : DifferBehind last worker other) (needs : List (Nat × Need K))
    (p : Fetching K σ) :
    needs.foldl (fetchNeed other) p = needs.foldl (fetchNeed worker) p ∨
    ∃ before entry behind, needs = before ++ entry :: behind ∧ last < entry.1 ∧
      entry.2.isWrite = true ∧ (before.foldl (fetchNeed worker) p).row = some entry.1 ∧
      (before.foldl (fetchNeed worker) p).failed = none ∧
      before.foldl (fetchNeed other) p = before.foldl (fetchNeed worker) p := by
  induction needs generalizing p with
  | nil => exact .inl rfl
  | cons entry needs ih =>
    rw [List.foldl_cons, List.foldl_cons]
    by_cases hcut : p.failed = none ∧ entry.2.isWrite = true ∧ p.row = some entry.1 ∧ last < entry.1
    · obtain ⟨hfailed, hwrite, hrow, hlast⟩ := hcut
      exact .inr ⟨[], entry, needs, rfl, hlast, hwrite, hrow, hfailed, rfl⟩
    · have hsame : fetchNeed other p entry = fetchNeed worker p entry := by
        cases hfailed : p.failed with
        | some error =>
          have hsome : p.failed.isSome = true := by rw [hfailed]; rfl
          rw [fetchNeed_failed hsome, fetchNeed_failed hsome]
        | none =>
          refine fetchNeed_same h fun hwrite hrow => ?_
          by_contra hlast
          exact hcut ⟨hfailed, hwrite, hrow, not_le.1 hlast⟩
      rw [hsame]
      rcases ih (fetchNeed worker p entry) with hequal | ⟨before, cut, behind, rfl, hlast, hwrite,
        hrow, hfailed, hloop⟩
      · exact .inl hequal
      · refine .inr ⟨entry :: before, cut, behind, rfl, hlast, hwrite, hrow, hfailed, ?_⟩
        rw [List.foldl_cons, List.foldl_cons, hsame, hloop]

/-- Where the row still goes on, every need so far was a write of it. -/
theorem fetchLoop_row {next place : Nat} (needs : List (Nat × Need K)) (p : Fetching K σ)
    (hrow : p.row = some next) (hafter : (needs.foldl (fetchNeed worker) p).row = some place)
    (hfailed : (needs.foldl (fetchNeed worker) p).failed = none) :
    (∀ rest, rowFrom next (needs ++ rest) = needs ++ rowFrom place rest) ∧
      place = next + needs.length ∧
      (∀ entry ∈ needs, entry.1 ∈ (needs.foldl (fetchNeed worker) p).reruns.map Prod.fst) ∧
      (needs.foldl (fetchNeed worker) p).asks = p.asks ∧
      (needs.foldl (fetchNeed worker) p).plans = p.plans := by
  induction needs generalizing p next with
  | nil =>
    obtain rfl : next = place := Option.some.inj (hrow.symm.trans hafter)
    exact ⟨fun _ => rfl, rfl, fun _ h => absurd h List.not_mem_nil, rfl, rfl⟩
  | cons entry needs ih =>
    rw [List.foldl_cons] at hafter hfailed ⊢
    cases hp : p.failed with
    | some error =>
      rw [fetchNeed_failed (by rw [hp]; rfl), fetchLoop_failed (by rw [hp]; rfl), hp] at hfailed
      cases hfailed
    | none =>
      have hnever : ∀ q : Fetching K σ, q.row = none →
          (needs.foldl (fetchNeed worker) q).row = none := by
        clear ih hafter hfailed
        induction needs with
        | nil => exact fun _ h => h
        | cons next needs ih =>
          intro q hq
          rw [List.foldl_cons]
          refine ih _ ?_
          cases hqf : q.failed with
          | some error => rw [fetchNeed_failed (by rw [hqf]; rfl), hq]
          | none =>
            rcases fetchNeed_cases worker hqf next with
              ⟨-, -, heq⟩ | ⟨-, hin, -⟩ | ⟨-, _, _, _, -, -, heq⟩
            · rw [heq]
            · rw [hq] at hin
              cases hin
            · rw [heq]
      rcases fetchNeed_cases worker hp entry with
        ⟨-, -, heq⟩ | ⟨hwrite, hin, reruns, round, world, failed, hreruns, heq⟩ |
          ⟨-, _, _, _, -, -, heq⟩
      · rw [hnever _ (by rw [heq])] at hafter
        cases hafter
      · obtain rfl : next = entry.1 := Option.some.inj (hrow.symm.trans hin)
        obtain ⟨hrest, hplace, hnoted, hasks, hplans⟩ :=
          ih (fetchNeed worker p entry) (by rw [heq]) hafter hfailed
        refine ⟨fun rest => ?_, ?_, fun other hother => ?_, hasks.trans (by rw [heq]),
          hplans.trans (by rw [heq])⟩
        · rw [List.cons_append, rowFrom, if_pos ⟨hwrite, rfl⟩, hrest]
          rfl
        · rw [hplace, List.length_cons]
          omega
        · rcases List.mem_cons.1 hother with rfl | hother
          · obtain ⟨_, hloop⟩ := fetchLoop worker needs (fetchNeed worker p other)
            refine hloop.kept _ ?_
            rw [heq]
            exact wrote_fst hreruns ▸ mem_noted_fst.2 (.inr rfl)
          · exact hnoted other hother
      · rw [hnever _ (by rw [heq])] at hafter
        cases hafter

/-! ## What a round leaves of the calls up to one -/

/-- The entries of the calls up to `last`. -/
def upTo {α : Type} (last : Nat) (entries : List (Nat × α)) : List (Nat × α) :=
  entries.filter fun entry => entry.1 ≤ last

omit [DecidableEq K.EmailId] in
theorem upTo_bring (reruns : List (Nat × Brought K)) (brought : Brought K) (h : last < index) :
    upTo last (bring reruns index brought) = upTo last reruns := by
  induction reruns with
  | nil => rfl
  | cons rerun reruns ih =>
    rw [upTo] at ih
    rw [bring]
    split
    · rename_i heq
      have hout : ¬ rerun.1 ≤ last := by omega
      simp [upTo, hout]
    · rw [upTo, upTo, List.filter_cons, List.filter_cons, ih]
      rfl

omit [DecidableEq K.EmailId] in
theorem upTo_noted (reruns : List (Nat × Brought K)) (h : last < index) :
    upTo last (noted reruns index) = upTo last reruns := by
  rw [noted]
  split
  · rfl
  · rw [upTo, List.filter_append]
    simp [upTo, h]

/-- What two rounds that part behind `last` still share: what they brought up to it; what they ask
of bodies and searches is for calls behind it. -/
structure PartBehind (last : Nat) (p q : Fetching K σ) : Prop where
  brought : upTo last q.reruns = upTo last p.reruns
  asks : ∀ ask ∈ q.asks, last < ask.1
  plans : ∀ plan ∈ q.plans, last < plan.1

theorem fetchLoop_behind (needs : List (Nat × Need K)) (q : Fetching K σ)
    (hneeds : ∀ entry ∈ needs, last < entry.1) (h : PartBehind last p q) :
    PartBehind last p (needs.foldl (fetchNeed worker) q) := by
  induction needs generalizing q with
  | nil => exact h
  | cons entry needs ih =>
    rw [List.foldl_cons]
    refine ih _ (fun other hother => hneeds other (List.mem_cons_of_mem _ hother)) ?_
    have hlast := hneeds entry List.mem_cons_self
    cases hq : q.failed with
    | some error =>
      rw [fetchNeed_failed (by rw [hq]; rfl)]
      exact h
    | none =>
      rcases fetchNeed_cases worker hq entry with ⟨-, -, heq⟩ |
        ⟨-, -, reruns, round, world, failed, hreruns, heq⟩ |
          ⟨-, ids, asks, plans, hasks, hplans, heq⟩
      · rw [heq]
        exact ⟨h.brought, h.asks, h.plans⟩
      · rw [heq]
        refine ⟨?_, h.asks, h.plans⟩
        rw [← h.brought, ← upTo_noted q.reruns hlast]
        rcases hreruns with rfl | ⟨brought, rfl⟩
        · rfl
        · exact upTo_bring _ _ hlast
      · rw [heq]
        refine ⟨(upTo_noted q.reruns hlast).trans h.brought, fun ask hask => ?_,
          fun plan hplan => ?_⟩
        · rcases hasks with rfl | ⟨new, rfl⟩
          · exact h.asks ask hask
          · rcases List.mem_append.1 hask with hask | hask
            · exact h.asks ask hask
            · rwa [List.mem_singleton.1 hask]
        · rcases hplans with rfl | ⟨new, rfl⟩
          · exact h.plans plan hplan
          · rcases List.mem_append.1 hplan with hplan | hplan
            · exact h.plans plan hplan
            · rwa [List.mem_singleton.1 hplan]

omit [DecidableEq K.EmailId] in
theorem fillPreviews_behind (h : PartBehind last p q) :
    PartBehind last p (fillPreviews worker q) := by
  rw [fillPreviews]
  split
  · exact h
  · exact ⟨h.brought, h.asks, h.plans⟩

omit [DecidableEq K.EmailId] in
theorem upTo_foldl_bring {α : Type} (l : List α) (place : α → Nat) (brought : α → Brought K)
    (hl : ∀ a ∈ l, last < place a) (reruns : List (Nat × Brought K)) :
    upTo last (l.foldl (fun reruns a => bring reruns (place a) (brought a)) reruns) =
      upTo last reruns := by
  induction l generalizing reruns with
  | nil => rfl
  | cons a l ih =>
    rw [List.foldl_cons, ih fun b hb => hl b (List.mem_cons_of_mem _ hb)]
    exact upTo_bring _ _ (hl a List.mem_cons_self)

omit [DecidableEq K.EmailId] in
theorem fillBodies_behind (h : PartBehind last p q) :
    PartBehind last p (fillBodies worker noBodies q) := by
  rw [fillBodies]
  split
  · exact h
  · split
    · rename_i bodies _ _ _
      refine ⟨Eq.trans ?_ h.brought, h.asks, h.plans⟩
      refine upTo_foldl_bring _ (fun a : (Nat × K.BodyAsk) × K.Bodies => a.1.1) _ (fun a ha => ?_) _
      exact h.asks a.1 (List.of_mem_zip ha).1
    · split
      · exact ⟨h.brought, h.asks, h.plans⟩
      · refine ⟨Eq.trans ?_ h.brought, h.asks, h.plans⟩
        exact upTo_foldl_bring _ Prod.fst _ h.asks _

omit [DecidableEq K.EmailId] in
theorem searchAll_behind (h : PartBehind last p q) : PartBehind last p (searchAll worker q) := by
  rw [searchAll]
  split
  · exact h
  · have hfold : ∀ (plans : List (Nat × K.Plan)) (q : Fetching K σ),
        (∀ plan ∈ plans, last < plan.1) → PartBehind last p q →
          PartBehind last p (plans.foldl (searchOne worker) q) := by
      intro plans
      induction plans with
      | nil => exact fun q _ h => h
      | cons plan plans ih =>
        intro q hplans h
        rw [List.foldl_cons]
        refine ih _ (fun other hother => hplans other (List.mem_cons_of_mem _ hother)) ?_
        exact ⟨(upTo_bring _ _ (hplans plan List.mem_cons_self)).trans h.brought, h.asks, h.plans⟩
    exact hfold q.plans q h.plans h

variable (noBodies) in
/-- **Two rounds over one account** are the same, or meet a write behind `last` and share what they
brought up to it; every call from the first of the round up to `last` then set emails and runs
again. -/
theorem fetched_apart (h : DifferBehind last worker other)
    (hsorted : r.answered.needs.Pairwise fun a b => a.1 ≤ b.1)
    (hahead : EmailsAhead r.answered.needs) :
    fetched other noBodies r.answered.needs r.carried r.world r.applied =
      fetched worker noBodies r.answered.needs r.carried r.world r.applied ∨
    upTo last (fetched other noBodies r.answered.needs r.carried r.world r.applied).reruns =
      upTo last (fetched worker noBodies r.answered.needs r.carried r.world r.applied).reruns ∧
    ∃ next, r.answered.needs.head?.map Prod.fst = some next ∧ ∀ m, next ≤ m → m ≤ last →
      (∃ ask, (m, .write ask) ∈ r.answered.needs) ∧ m ∈
        (fetched worker noBodies r.answered.needs r.carried r.world r.applied).reruns.map
          Prod.fst := by
  set needs := r.answered.needs with hneeds
  set p₀ := fetchStart needs r.carried r.world r.applied with hp₀
  rcases fetchLoop_same h needs p₀ with hsame |
    ⟨before, entry, behind, hsplit, hlast, hwrite, hrow, hfailed, hloop⟩
  · left
    have hpreviews : fillPreviews other = fillPreviews worker := by
      funext p
      simp only [fillPreviews, h.previews]
    have hbodies : fillBodies other noBodies = fillBodies worker noBodies := by
      funext p
      simp only [fillBodies, h.bodies]
    have hsearch : searchAll other = searchAll worker := by
      funext p
      simp only [searchAll, show searchOne other = searchOne worker by
        funext p plan
        simp only [searchOne, h.search]]
    rw [fetched, fetched, hpreviews, hbodies, hsearch, hsame]
  · right
    obtain ⟨next, hnext⟩ : ∃ next, needs.head?.map Prod.fst = some next := by
      rw [hsplit]
      cases before with
      | nil => exact ⟨_, rfl⟩
      | cons first rest => exact ⟨_, rfl⟩
    have hstart : p₀.row = some next := hnext
    obtain ⟨hrest, hplace, hnoted, hasks, hplans⟩ := fetchLoop_row before p₀ hstart hrow hfailed
    have hbehind : ∀ other ∈ entry :: behind, last < other.1 := by
      intro other hother
      rcases List.mem_cons.1 hother with rfl | hother
      · exact hlast
      · rw [hsplit] at hsorted
        have hpair := (List.pairwise_append.1 hsorted).2.1
        exact lt_of_lt_of_le hlast ((List.pairwise_cons.1 hpair).1 other hother)
    have hpart : PartBehind last (before.foldl (fetchNeed worker) p₀)
        (before.foldl (fetchNeed worker) p₀) := by
      refine ⟨rfl, ?_, ?_⟩
      · rw [hasks]
        exact fun ask hask => absurd hask List.not_mem_nil
      · rw [hplans]
        exact fun plan hplan => absurd hplan List.not_mem_nil
    have hwhole : ∀ w : Worker K σ, before.foldl (fetchNeed w) p₀ =
        before.foldl (fetchNeed worker) p₀ → upTo last
          (fetched w noBodies needs r.carried r.world r.applied).reruns =
            upTo last (before.foldl (fetchNeed worker) p₀).reruns := by
      intro w hw
      have hloops : needs.foldl (fetchNeed w) p₀ =
          (entry :: behind).foldl (fetchNeed w) (before.foldl (fetchNeed worker) p₀) := by
        rw [hsplit, List.foldl_append, hw]
      rw [fetched, ← hp₀, hloops]
      exact (searchAll_behind (fillBodies_behind (fillPreviews_behind
        (fetchLoop_behind _ _ hbehind hpart)))).brought
    refine ⟨(hwhole other hloop).trans (hwhole worker rfl).symm, next, hnext, fun m hm hle => ?_⟩
    -- the row reaches over `last`, so the call stands in it
    have hin : m ∈ before.map Prod.fst := by
      have hfst := rowFrom_fst before next
      have hself := hrest []
      rw [List.append_nil, rowFrom, List.append_nil] at hself
      rw [hself] at hfst
      rw [hfst, List.mem_range'_1]
      omega
    obtain ⟨found, hfound, rfl⟩ := List.mem_map.1 hin
    constructor
    · have hdrop : found ∈ (rowFrom next needs).dropLast := by
        rw [hsplit, hrest, rowFrom, if_pos ⟨hwrite, rfl⟩]
        rw [List.dropLast_append_of_ne_nil (List.cons_ne_nil _ _)]
        exact List.mem_append_left _ hfound
      obtain ⟨ask, hask⟩ := hahead next hnext found hdrop
      refine ⟨ask, ?_⟩
      rw [← hask, hsplit]
      exact List.mem_append_left _ hfound
    · obtain ⟨_, hloop⟩ := fetchLoop worker (entry :: behind)
        (before.foldl (fetchNeed worker) p₀)
      rw [(fetched_alike worker noBodies needs r.carried r.world r.applied).1, hsplit,
        List.foldl_append, ← hsplit]
      exact hloop.kept _ (hnoted found hfound)

/-! ## Two passes -/

omit [DecidableEq K.EmailId] in
/-- A call that sets emails reads nothing of the world. -/
theorem run_email (world after : σ) {had : Option (Brought K)} {call : Invocation}
    {previous : List Invocation} {budget : Nat} (hmethod : call.method = "Email/set")
    (hmail : capabilities.mail = true) :
    run methods capabilities after had call previous budget =
      run methods capabilities world had call previous budget := by
  have hdispatch : ∀ arguments, dispatch methods capabilities after had call.method arguments =
      dispatch methods capabilities world had call.method arguments := by
    intro arguments
    rw [dispatch, dispatch, if_pos ⟨hmethod, hmail⟩, if_pos ⟨hmethod, hmail⟩]
  simp only [run, hdispatch]

/-- What two passes share: the answers of the calls up to `last`. -/
structure Shares (last : Nat) (a b : Answered K) : Prop where
  responses : b.responses.take (last + 1) = a.responses.take (last + 1)
  trailers : upTo last b.trailers = upTo last a.trailers

omit [DecidableEq K.EmailId] in
theorem Shares.trans {a b c : Answered K} (h : Shares last a b) (h' : Shares last b c) :
    Shares last a c :=
  ⟨h'.responses.trans h.responses, h'.trailers.trans h.trailers⟩

variable {world after : σ} {first : Nat} {calls : List Invocation} {a b : Answered K}

omit [DecidableEq K.EmailId] in
/-- A call behind `last`, or one that does not run, leaves the answers up to it. -/
theorem answerCall_shares (pass : Answered K × Nat) {call : Invocation × Nat}
    (h : call.2 < first ∨ last < call.2) :
    Shares last pass.1 (answerCall methods capabilities world (some first) pass call).1 := by
  obtain ⟨call, index⟩ := call
  simp only [answerCall, Option.any_some, decide_eq_true_eq]
  split
  · exact ⟨rfl, rfl⟩
  · rename_i hruns
    have hlast : last < index := h.resolve_left hruns
    refine ⟨?_, ?_⟩
    · simp only [Option.isSome_some, if_true]
      rw [List.take_set, List.set_eq_of_length_le]
      exact (List.length_take_le _ _).trans hlast
    · have hkept : ∀ trailer ∈ pass.1.trailers, trailer.1 ≤ last → trailer.1 ≠ index :=
        fun trailer _ hle => by omega
      have hnew : ∀ trailers : List (Nat × Fields), (∀ trailer ∈ trailers, trailer.1 = index) →
          upTo last trailers = [] := by
        intro trailers htrailers
        refine List.filter_eq_nil_iff.2 fun trailer htrailer => ?_
        have := htrailers trailer htrailer
        simp only [decide_eq_true_eq]
        omega
      have hold : upTo last (pass.1.trailers.filter fun trailer => trailer.1 ≠ index) =
          upTo last pass.1.trailers := by
        rw [upTo, upTo, List.filter_filter]
        refine List.filter_congr fun trailer htrailer => ?_
        by_cases hle : trailer.1 ≤ last
        · simp [hle, hkept trailer htrailer hle]
        · simp [hle]
      refine Eq.trans ?_ hold
      refine (List.filter_append _ _).trans ?_
      refine (congrArg _ (hnew _ fun trailer htrailer => ?_)).trans (List.append_nil _)
      obtain ⟨_, _, rfl⟩ := List.mem_map.1 htrailer
      rfl

omit [DecidableEq K.EmailId] in
variable (methods capabilities world) in
theorem answerLoop_shares (calls : List (Invocation × Nat)) (pass : Answered K × Nat)
    (h : ∀ call ∈ calls, call.2 < first ∨ last < call.2) :
    Shares last pass.1
      (calls.foldl (answerCall methods capabilities world (some first)) pass).1 := by
  induction calls generalizing pass with
  | nil => exact ⟨rfl, rfl⟩
  | cons call calls ih =>
    rw [List.foldl_cons]
    exact (answerCall_shares pass (h call List.mem_cons_self)).trans
      (ih _ fun other hother => h other (List.mem_cons_of_mem _ hother))

omit [DecidableEq K.EmailId] in
/-- The calls up to `last` answer the same in both passes where each that runs sets emails and was
brought the same. -/
theorem answerLoop_apart (calls : List (Invocation × Nat)) (pass pass' : Answered K × Nat)
    (hcalls : ∀ call ∈ calls, call.2 ≤ last ∧
      (first ≤ call.2 → call.1.method = "Email/set" ∧ capabilities.mail = true) ∧
      hadOf pass'.1.brought call.2 = hadOf pass.1.brought call.2)
    (hshares : Shares last pass.1 pass'.1) (hbudget : pass'.2 = pass.2) :
    Shares last (calls.foldl (answerCall methods capabilities world (some first)) pass).1
      (calls.foldl (answerCall methods capabilities after (some first)) pass').1 := by
  induction calls generalizing pass pass' with
  | nil => exact hshares
  | cons call calls ih =>
    rw [List.foldl_cons, List.foldl_cons]
    obtain ⟨hle, hemail, hhad⟩ := hcalls call List.mem_cons_self
    have hone : Shares last (answerCall methods capabilities world (some first) pass call).1
        (answerCall methods capabilities after (some first) pass' call).1 ∧
        (answerCall methods capabilities after (some first) pass' call).2 =
          (answerCall methods capabilities world (some first) pass call).2 := by
      obtain ⟨call, index⟩ := call
      simp only [answerCall, Option.any_some, decide_eq_true_eq]
      split
      · exact ⟨hshares, hbudget⟩
      · rename_i hruns
        obtain ⟨hmethod, hmail⟩ := hemail (not_lt.1 hruns)
        have hprevious : pass'.1.responses.take index = pass.1.responses.take index := by
          have htake := congrArg (List.take index) hshares.responses
          rwa [List.take_take, List.take_take, min_eq_left (hle.trans (Nat.le_succ _))] at htake
        rw [hprevious, hhad, hbudget, run_email world after hmethod hmail]
        refine ⟨⟨?_, ?_⟩, rfl⟩
        · simp only [Option.isSome_some, if_true]
          rw [List.take_set, List.take_set, hshares.responses]
        · have hcut : ∀ trailers : List (Nat × Fields),
              upTo last (trailers.filter fun trailer => trailer.1 ≠ index) =
                (upTo last trailers).filter fun trailer => trailer.1 ≠ index := by
            intro trailers
            rw [upTo, upTo, List.filter_filter, List.filter_filter]
            exact List.filter_congr fun _ _ => Bool.and_comm _ _
          refine (List.filter_append _ _).trans ((List.filter_append _ _).trans ?_).symm
          have hfilters := (hcut pass'.1.trailers).trans
            ((congrArg _ hshares.trailers).trans (hcut pass.1.trailers).symm)
          exact congrArg (· ++ _) hfilters.symm
    refine ih _ _ (fun other hother => ?_) hone.1 hone.2
    obtain ⟨hle, hemail, hhad⟩ := hcalls other (List.mem_cons_of_mem _ hother)
    refine ⟨hle, hemail, ?_⟩
    rw [(answerCall_needs _ _ _ _ _ _).1, (answerCall_needs _ _ _ _ _ _).1]
    exact hhad

omit [DecidableEq K.EmailId] in
theorem answer_apart
    (hcalls : ∀ m call, calls[m]? = some call → first ≤ m → m ≤ last →
      call.method = "Email/set" ∧ capabilities.mail = true)
    (hbrought : upTo last b.brought = upTo last a.brought) (hshares : Shares last a b) :
    Shares last (answer methods capabilities world calls (some first) a)
      (answer methods capabilities after calls (some first) b) := by
  have hhad : ∀ m ≤ last, hadOf b.brought m = hadOf a.brought m := by
    have hupTo : ∀ (brought : List (Nat × Brought K)) (m : Nat), m ≤ last →
        hadOf (upTo last brought) m = hadOf brought m := by
      intro brought m hm
      rw [hadOf, hadOf, upTo, List.find?_filter]
      congr 2
      funext entry
      by_cases heq : entry.1 = m
      · simp [heq, hm]
      · simp [heq]
    intro m hm
    rw [← hupTo b.brought m hm, ← hupTo a.brought m hm, hbrought]
  have hsplit : calls.zipIdx = (calls.take (last + 1)).zipIdx ++
      (calls.drop (last + 1)).zipIdx (calls.take (last + 1)).length := by
    conv_lhs => rw [← List.take_append_drop (last + 1) calls, List.zipIdx_append, Nat.zero_add]
  have hbehind : ∀ call ∈ (calls.drop (last + 1)).zipIdx (calls.take (last + 1)).length,
      call.2 < first ∨ last < call.2 := by
    intro call hcall
    right
    have hle := List.le_snd_of_mem_zipIdx hcall
    have hlength := List.length_pos_of_mem (List.fst_mem_of_mem_zipIdx hcall)
    rw [List.length_drop] at hlength
    rw [List.length_take] at hle
    omega
  rw [answer, answer, hsplit, List.foldl_append, List.foldl_append]
  set before := (calls.take (last + 1)).zipIdx.foldl
    (answerCall methods capabilities world (some first))
    ({ a with needs := [] }, References.MAX_REFERENCE_WEIGHT)
  set before' := (calls.take (last + 1)).zipIdx.foldl
    (answerCall methods capabilities after (some first))
    ({ b with needs := [] }, References.MAX_REFERENCE_WEIGHT)
  have hfirsts : Shares last before.1 before'.1 := by
    refine answerLoop_apart _ _ _ (fun call hcall => ?_) ⟨hshares.responses, hshares.trailers⟩ rfl
    have hlt := List.snd_lt_of_mem_zipIdx hcall
    rw [List.length_take] at hlt
    have hle : call.2 ≤ last := by omega
    refine ⟨hle, fun hfirst => hcalls call.2 call.1 ?_ hfirst hle, hhad call.2 hle⟩
    have hget := List.mem_zipIdx_iff_getElem?.1 hcall
    rwa [List.getElem?_take_of_lt (by omega)] at hget
  have hw := answerLoop_shares methods capabilities world _ before hbehind
  have ho := answerLoop_shares methods capabilities after _ before' hbehind
  exact ⟨ho.responses.trans (hfirsts.responses.trans hw.responses.symm),
    ho.trailers.trans (hfirsts.trailers.trans hw.trailers.symm)⟩

omit [DecidableEq K.EmailId] in
variable (methods capabilities world a) in
theorem answer_shares (calls : List Invocation) (h : last < first) :
    Shares last a (answer methods capabilities world calls (some first) a) := by
  have hcalls : ∀ call ∈ calls.zipIdx, call.2 < first ∨ last < call.2 := fun call _ => by omega
  have hloop := answerLoop_shares methods capabilities world calls.zipIdx
    ({ a with needs := [] }, References.MAX_REFERENCE_WEIGHT) hcalls
  exact ⟨hloop.responses, hloop.trailers⟩

/-- Two runs whose calls up to `last` answered and answer the same for good. -/
structure Past (last : Nat) (r s : Running K σ) : Prop where
  shares : Shares last r.answered s.answered
  needs : ∀ entry ∈ r.answered.needs, last < entry.1
  others : ∀ entry ∈ s.answered.needs, last < entry.1

/-- A pass that did not fail runs the calls from the first need's on. -/
theorem pass_ran {head : Nat × Need K} {rest : List (Nat × Need K)} (h : InOrder request r)
    (hfine : r.failed = none) (hcons : r.answered.needs = head :: rest)
    (hpass : (pass worker methods noBodies request r).failed = none) :
    (pass worker methods noBodies request r).answered =
      answer methods request.capabilities
        (fetched worker noBodies r.answered.needs r.carried r.world r.applied).world
        request.methodCalls (some head.1) { r.answered with
          brought := r.answered.brought ++
            (fetched worker noBodies r.answered.needs r.carried r.world r.applied).reruns } := by
  have hne : r.answered.needs ≠ [] := hcons ▸ List.cons_ne_nil _ _
  obtain ⟨_, hround⟩ := fetched_rounds worker noBodies (h.sorted hfine) hne
  have hmin : ((fetched worker noBodies r.answered.needs r.carried r.world
      r.applied).reruns.map Prod.fst).min? = some head.1 := by
    rw [hround.first, hcons]
    rfl
  have hgo : (r.failed.isSome || r.answered.needs.isEmpty) = false := by
    rw [hfine, List.isEmpty_eq_false_iff.2 hne]
    rfl
  by_cases hfailed :
      (fetched worker noBodies r.answered.needs r.carried r.world r.applied).failed.isSome = true
  · simp only [pass, hgo, Bool.false_eq_true, if_false, if_pos hfailed] at hpass
    rw [hpass] at hfailed
    cases hfailed
  · simp only [pass, hgo, Bool.false_eq_true, if_false, if_neg hfailed, hmin, Option.getD_some]

/-- A pass whose needs are all of calls behind `last` leaves the answers up to it. -/
theorem pass_behind (h : InOrder request r) (hfine : r.failed = none)
    (hpass : (pass worker methods noBodies request r).failed = none)
    (hneeds : ∀ entry ∈ r.answered.needs, last < entry.1) :
    Shares last r.answered (pass worker methods noBodies request r).answered ∧
      ∀ entry ∈ (pass worker methods noBodies request r).answered.needs, last < entry.1 := by
  cases hcons : r.answered.needs with
  | nil =>
    have hdone : pass worker methods noBodies request r = r := by
      rw [pass, hcons, List.isEmpty_nil, Bool.or_true, if_pos rfl]
    rw [hdone]
    exact ⟨⟨rfl, rfl⟩, hneeds⟩
  | cons head rest =>
    have hfirst : last < head.1 := hneeds head (hcons ▸ List.mem_cons_self)
    rw [pass_ran h hfine hcons hpass]
    refine ⟨?_, fun entry hentry => ?_⟩
    · have hshares := answer_shares methods request.capabilities
        (fetched worker noBodies r.answered.needs r.carried r.world r.applied).world
        { r.answered with brought := r.answered.brought ++
          (fetched worker noBodies r.answered.needs r.carried r.world r.applied).reruns }
        request.methodCalls hfirst
      exact ⟨hshares.responses, hshares.trailers⟩
    · exact lt_of_lt_of_le hfirst (((answer_needs _ _ _ _ _ _).2.2 entry hentry).starts _ rfl)

omit [DecidableEq K.EmailId] in
theorem mem_of_upTo {p q : List (Nat × Brought K)} (h : upTo last q = upTo last p) {m : Nat}
    (hm : m ≤ last) (hp : m ∈ p.map Prod.fst) : m ∈ q.map Prod.fst := by
  obtain ⟨entry, hentry, rfl⟩ := List.mem_map.1 hp
  have hin : entry ∈ upTo last q := by
    rw [h]
    exact List.mem_filter.2 ⟨hentry, decide_eq_true hm⟩
  exact List.mem_map_of_mem (List.mem_filter.1 hin).1

/-- **Two passes from one state** are one, or part for good. -/
theorem pass_apart (hd : DifferBehind last worker other) (h : InOrder request r)
    (hahead : EmailsAhead r.answered.needs) (hfine : r.failed = none)
    (hw : (pass worker methods noBodies request r).failed = none)
    (ho : (pass other methods noBodies request r).failed = none) :
    pass other methods noBodies request r = pass worker methods noBodies request r ∨
      Past last (pass worker methods noBodies request r)
        (pass other methods noBodies request r) := by
  by_cases hbehind : ∀ entry ∈ r.answered.needs, last < entry.1
  · obtain ⟨hshares, hneeds⟩ := pass_behind h hfine hw hbehind
    obtain ⟨hshares', hneeds'⟩ := pass_behind h hfine ho hbehind
    exact .inr ⟨⟨hshares'.responses.trans hshares.responses.symm,
      hshares'.trailers.trans hshares.trailers.symm⟩, hneeds, hneeds'⟩
  · obtain ⟨low, hlow, hle⟩ : ∃ entry ∈ r.answered.needs, entry.1 ≤ last := by
      by_contra hnone
      exact hbehind fun entry hentry => not_le.1 fun hle => hnone ⟨entry, hentry, hle⟩
    have hne : r.answered.needs ≠ [] := List.ne_nil_of_mem hlow
    rcases fetched_apart noBodies hd (h.sorted hfine) hahead with hsame |
      ⟨hupTo, next, hnext, hrow⟩
    · left
      rw [pass, pass, hsame]
    · right
      obtain ⟨head, rest, hcons⟩ := List.exists_cons_of_ne_nil hne
      obtain rfl : head.1 = next := by
        rw [hcons] at hnext
        exact Option.some.inj hnext
      have hleft : ∀ {w : σ} {reruns : List (Nat × Brought K)},
          (∀ m, head.1 ≤ m → m ≤ last → m ∈ reruns.map Prod.fst) →
          ∀ entry ∈ (answer methods request.capabilities w request.methodCalls (some head.1)
            { r.answered with brought := r.answered.brought ++ reruns }).needs,
            last < entry.1 := by
        intro w reruns hreruns entry hentry
        have hleft := (answer_needs _ _ _ _ _ _).2.2 entry hentry
        by_contra hnot
        exact hadOf_append (hreruns entry.1 (hleft.starts _ rfl) (not_lt.1 hnot)) hleft.fresh
      have hran := pass_ran h hfine hcons hw
      have hran' := pass_ran h hfine hcons ho
      refine ⟨?_, ?_, ?_⟩
      · rw [hran, hran']
        refine answer_apart (fun m call hcall hm hle => ?_) ?_ ⟨rfl, rfl⟩
        · obtain ⟨ask, hask⟩ := (hrow m hm hle).1
          obtain ⟨found, hfound, hwrite⟩ := h.writes hfine _ hask
          obtain rfl : found = call := Option.some.inj (hfound.symm.trans hcall)
          exact hwrite ask rfl
        · rw [upTo, upTo, List.filter_append, List.filter_append]
          exact congrArg _ hupTo
      · rw [hran]
        exact hleft fun m hm hle => (hrow m hm hle).2
      · rw [hran']
        exact hleft fun m hm hle => mem_of_upTo hupTo hle (hrow m hm hle).2

/-! ## Two runs -/

/-- The request after some of its later passes. -/
def passed (worker : Worker K σ) (methods : Methods K σ) (noBodies : K.Bodies) (request : Request)
    (world : σ) (k : Nat) : Running K σ :=
  (pass worker methods noBodies request)^[k]
    (start methods request (refreshed worker request world).2)

theorem passed_succ (k : Nat) : passed worker methods noBodies request world (k + 1) =
    pass worker methods noBodies request (passed worker methods noBodies request world k) :=
  Function.iterate_succ_apply' _ _ _

theorem passed_inOrder (k : Nat) :
    InOrder request (passed worker methods noBodies request world k) := by
  induction k with
  | zero => exact start_inOrder _ _ _
  | succ k ih =>
    rw [passed_succ]
    exact ih.pass

/-- A request that has not failed had not failed a pass before. -/
theorem failed_of_passed {k : Nat}
    (h : (passed worker methods noBodies request world (k + 1)).failed = none) :
    (passed worker methods noBodies request world k).failed = none := by
  by_contra hfailed
  rw [passed_succ, pass, Option.isSome_iff_ne_none.2 hfailed, Bool.true_or, if_pos rfl] at h
  exact hfailed h

/-- Two runs are one, or have parted for good. -/
theorem passed_apart (hd : DifferBehind last worker other) (k : Nat)
    (hahead : ∀ j < k, EmailsAhead (passed worker methods noBodies request world j).answered.needs)
    (hw : (passed worker methods noBodies request world k).failed = none)
    (ho : (passed other methods noBodies request world k).failed = none) :
    passed other methods noBodies request world k =
      passed worker methods noBodies request world k ∨
    Past last (passed worker methods noBodies request world k)
      (passed other methods noBodies request world k) := by
  induction k with
  | zero =>
    left
    rw [passed, passed, refreshed, refreshed, hd.refresh]
    rfl
  | succ k ih =>
    have hw' := failed_of_passed hw
    have ho' := failed_of_passed ho
    rw [passed_succ] at hw ho
    rw [passed_succ, passed_succ]
    rcases ih (fun j hj => hahead j (hj.trans (Nat.lt_succ_self k))) hw' ho' with hsame | hpast
    · rw [hsame] at ho ⊢
      exact pass_apart hd (passed_inOrder k) (hahead k (Nat.lt_succ_self k)) hw' hw ho
    · obtain ⟨hshares, hneeds⟩ := pass_behind (passed_inOrder k) hw' hw hpast.needs
      obtain ⟨hshares', hneeds'⟩ := pass_behind (passed_inOrder k) ho' ho hpast.others
      refine .inr ⟨⟨?_, ?_⟩, hneeds, hneeds'⟩
      · rw [hshares'.responses, hpast.shares.responses, hshares.responses]
      · rw [hshares'.trailers, hpast.shares.trailers, hshares.trailers]

omit [DecidableEq K.EmailId] in
theorem Shares.answerOf (h : Shares last a b) {calls : List Invocation} {i : Nat} (hi : i ≤ last) :
    answerOf calls b i = answerOf calls a i := by
  have hresponse : b.responses[i]? = a.responses[i]? := by
    have hat := congrArg (·[i]?) h.responses
    simpa only [List.getElem?_take_of_lt (Nat.lt_succ_of_le hi)] using hat
  have htrailer : b.trailers.find? (fun trailer => trailer.1 = i) =
      a.trailers.find? fun trailer => trailer.1 = i := by
    have hcut : ∀ trailers : List (Nat × Fields), trailers.find? (fun trailer => trailer.1 = i) =
        (upTo last trailers).find? fun trailer => trailer.1 = i := by
      intro trailers
      rw [upTo, List.find?_filter]
      congr 1
      funext trailer
      by_cases heq : trailer.1 = i
      · simp [heq, hi]
      · simp [heq]
    rw [hcut b.trailers, hcut a.trailers, h.trailers]
  rw [Requests.answerOf, Requests.answerOf, hresponse, htrailer]

/-- **The writes of a request**: they run in the order of their calls, each once, in at most the
passes a request takes; a write still asked for in the end never ran; and where in every round the
writes ahead of another one set emails, no answer depends on what the writes behind its call do. -/
theorem writes_apart (worker : Worker K σ) (methods : Methods K σ) (noBodies : K.Bodies)
    (request : Request) (world : σ) :
    let r := handle worker methods noBodies request world
    r.applied.Pairwise (· < ·) ∧ r.passes ≤ MAX_PASSES ∧
    (r.failed = none → ∀ entry ∈ r.answered.needs, entry.1 ∉ r.applied) ∧
    ((∀ k < MAX_PASSES - 1,
        EmailsAhead (passed worker methods noBodies request world k).answered.needs) →
      ∀ other last, DifferBehind last worker other →
        let s := handle other methods noBodies request world
        r.failed = none → s.failed = none → ∀ i ≤ last,
          answerOf request.methodCalls s.answered i =
            answerOf request.methodCalls r.answered i) := by
  obtain ⟨horder, hpasses⟩ := handle_inOrder worker methods noBodies request world
  refine ⟨horder.applied, hpasses, fun hfine entry hentry hin => ?_, ?_⟩
  · exact lt_irrefl _ (horder.behind hfine _ hin entry hentry)
  · intro hahead other last hd
    have hhandle : ∀ w : Worker K σ, (handle w methods noBodies request world).failed = none →
        handle w methods noBodies request world =
          passed w methods noBodies request world (MAX_PASSES - 1) := by
      intro w hw
      rw [handle] at hw ⊢
      rw [passed]
      split at hw
      · cases hw
      · rename_i hfew
        rw [if_neg hfew]
        split at hw
        · cases hw
        · rename_i hrefreshed
          rw [hrefreshed]
    intro s hr hs i hi
    have hrun := hhandle worker hr
    have hrun' := hhandle other hs
    change answerOf _ (handle other methods noBodies request world).answered i = _
    rw [hrun] at hr ⊢
    change (handle other methods noBodies request world).failed = none at hs
    rw [hrun'] at hs ⊢
    rcases passed_apart hd (MAX_PASSES - 1) hahead hr hs with hsame | hpast
    · rw [hsame]
    · exact hpast.shares.answerOf hi

/-! ## A mailbox renamed behind a call that shows it -/

/-- One mailbox, under a name and subscribed or not, and the state of its account. -/
structure OneMailbox where
  name : String
  subscribed : Bool
  state : Nat

abbrev plainKinds : Kinds := ⟨Unit, Unit, Unit, Unit, Unit, Unit, Unit, Unit, Unit⟩

def OneMailbox.shown (world : OneMailbox) : Shown where
  state := world.state
  rendered id :=
    if id = "m1" then
      [("id", .str "m1"), ("name", .str world.name), ("isSubscribed", .bool world.subscribed)]
    else []

/-- An account that answers `Mailbox/set` and `Core/echo` alone. -/
def oneMailbox : Methods plainKinds OneMailbox where
  account := "a1"
  nodeWeight := 32
  emailSet _ := .error .unknownMethod
  shown _ world := some world.shown
  submissionSet _ _ _ := (.error .unknownMethod, none, none)
  read _ _ _ name arguments :=
    (if name = "Core/echo" then .ok arguments else .error .unknownMethod, [])
  read_leaves h := absurd h List.not_mem_nil

/-- The updates of one ask on a server that does what it is asked. -/
def OneMailbox.updated (world : OneMailbox) (ask : FolderAsk) : OneMailbox :=
  ask.updates.foldl (fun world update =>
    ⟨update.name.getD world.name, update.subscribed.getD world.subscribed, world.state + 1⟩) world

def willing : Worker plainKinds OneMailbox where
  refresh world := (none, world)
  write _ _ round world := (.error .task, round, world)
  folders _ ask round world :=
    let after := world.updated ask
    let updated := ask.updates.map fun update => (update.id, .ok update.id)
    (.ok (.done world.shown after.state [] updated []), round, after)
  submit _ _ round world := (.error .task, round, world)
  previews _ world := (none, world)
  bodies asks windows world := (.ok (asks.map fun _ => ()), windows, world)
  search _ world := ((), world)

/-- The server refuses every call but the first. -/
def refusing : Worker plainKinds OneMailbox where
  refresh := willing.refresh
  write := willing.write
  folders i ask round world :=
    if i = 0 then willing.folders i ask round world
    else (.ok (.done world.shown world.state []
      (ask.updates.map fun update => (update.id, .error .serverFail)) []), round, world)
  submit := willing.submit
  previews := willing.previews
  bodies := willing.bodies
  search := willing.search

theorem refusing_differs : DifferBehind 0 willing refusing := by
  refine ⟨rfl, fun _ _ => rfl, fun i hi => ?_, fun _ _ => rfl, rfl, rfl, rfl⟩
  obtain rfl := Nat.le_zero.1 hi
  rfl

/-- One `Mailbox/set` of one patch. -/
def patchCall (patch : Fields) (id : String) : Invocation :=
  ⟨"Mailbox/set", [("accountId", .str "a1"), ("update", .obj [("m1", .obj patch)])], id⟩

/-- A mailbox is unsubscribed, then renamed. -/
def unsubscribeRename : Request where
  capabilities := ⟨true, true, false, false, false⟩
  methodCalls := [patchCall [("isSubscribed", .bool false)] "c0",
    patchCall [("name", .str "Play")] "c1"]
  createdIds := none

/-- Whether the answer of a call names a property of the mailbox the patch did not set. -/
def namesMore (answers : List Invocation) : Bool :=
  answers.any fun answer =>
    ((Json.lookup answer.arguments "updated").bind (·.get "m1")).any fun value =>
      value.asObject.isSome

/-- **The first call shows the second**: whether the server takes the rename of the second call is
what the answer of the first one shows. -/
theorem renamed_behind : DifferBehind 0 willing refusing ∧
    (handle willing oneMailbox () unsubscribeRename ⟨"Work", true, 1⟩).failed = none ∧
    (handle refusing oneMailbox () unsubscribeRename ⟨"Work", true, 1⟩).failed = none ∧
    answerOf unsubscribeRename.methodCalls
        (handle willing oneMailbox () unsubscribeRename ⟨"Work", true, 1⟩).answered 0 ≠
      answerOf unsubscribeRename.methodCalls
        (handle refusing oneMailbox () unsubscribeRename ⟨"Work", true, 1⟩).answered 0 := by
  refine ⟨refusing_differs, by decide +kernel, by decide +kernel, fun heq => ?_⟩
  have hnames := congrArg namesMore heq
  revert hnames
  decide +kernel

/-- The two calls with one between them that writes nothing. -/
def unsubscribeEchoRename : Request :=
  { unsubscribeRename with
    methodCalls := [patchCall [("isSubscribed", .bool false)] "c0", ⟨"Core/echo", [], "c1"⟩,
      patchCall [("name", .str "Play")] "c2"] }

omit [DecidableEq K.EmailId] in
theorem emailsAhead_of_length
    (h : ∀ next ∈ needs.head?.map Prod.fst, (rowFrom next needs).length ≤ 1) :
    EmailsAhead needs := by
  intro next hnext entry hentry
  have hlength := List.length_pos_of_mem hentry
  rw [List.length_dropLast] at hlength
  have hone := h next hnext
  omega

/-- The first of two calls with another between them shows nothing of the second. -/
theorem writes_apart_first : answerOf unsubscribeEchoRename.methodCalls
      (handle refusing oneMailbox () unsubscribeEchoRename ⟨"Work", true, 1⟩).answered 0 =
    answerOf unsubscribeEchoRename.methodCalls
      (handle willing oneMailbox () unsubscribeEchoRename ⟨"Work", true, 1⟩).answered 0 := by
  obtain ⟨-, -, -, hshows⟩ :=
    writes_apart willing oneMailbox () unsubscribeEchoRename ⟨"Work", true, 1⟩
  refine hshows (fun k hk => ?_) refusing 0 refusing_differs (by decide +kernel) (by decide +kernel)
    0 le_rfl
  refine emailsAhead_of_length ?_
  revert k
  decide +kernel

end Huliho.Requests
