import Mathlib.Data.List.Pairwise
import Huliho.Requests.Passes

/-!
# The order of the writes

What one need of a round does (`fetchNeed_cases`), what one pass leaves (`answer_needs`), and what
every request keeps through its passes: `InOrder`. The writes of a round are the row its needs begin
with, `rowFrom`.
-/

namespace Huliho.Requests

open References (Fields Invocation MethodError)

variable {K : Kinds} {σ : Type} [DecidableEq K.EmailId] {worker : Worker K σ}
  {reruns : List (Nat × Brought K)} {brought : Brought K} {index next : Nat}
  {needs : List (Nat × Need K)} {entry : Nat × Need K} {p : Fetching K σ}

/-! ## What is brought -/

omit [DecidableEq K.EmailId] in
@[simp] theorem bring_fst : (bring reruns index brought).map Prod.fst = reruns.map Prod.fst := by
  induction reruns with
  | nil => rfl
  | cons rerun reruns ih =>
    rw [bring]
    split
    · rfl
    · rw [List.map_cons, List.map_cons, ih]

omit [DecidableEq K.EmailId] in
theorem wrote_fst {written : List (Nat × Brought K)}
    (h : written = reruns ∨ ∃ brought, written = bring reruns index brought) :
    written.map Prod.fst = reruns.map Prod.fst := by
  rcases h with rfl | ⟨brought, rfl⟩
  · rfl
  · exact bring_fst

omit [DecidableEq K.EmailId] in
theorem mem_noted_fst {m : Nat} :
    m ∈ (noted reruns index).map Prod.fst ↔ m ∈ reruns.map Prod.fst ∨ m = index := by
  rw [noted]
  split
  · rename_i h
    obtain ⟨rerun, hrerun, heq⟩ := List.any_eq_true.1 h
    refine ⟨.inl, fun hm => hm.elim id fun hm => ?_⟩
    exact hm ▸ of_decide_eq_true heq ▸ List.mem_map_of_mem hrerun
  · simp

/-! ## One need -/

variable (worker) in
/-- What one need does to a round that has not failed: a write outside the row waits, a write in the
row runs, and every other need ends the row. -/
theorem fetchNeed_cases (hp : p.failed = none) (entry : Nat × Need K) :
    (entry.2.isWrite = true ∧ p.row ≠ some entry.1 ∧
      fetchNeed worker p entry = { p with row := none }) ∨
    (entry.2.isWrite = true ∧ p.row = some entry.1 ∧
      ∃ reruns round world failed,
        (reruns = noted p.reruns entry.1 ∨
          ∃ brought, reruns = bring (noted p.reruns entry.1) entry.1 brought) ∧
        fetchNeed worker p entry = { p with
          row := some (entry.1 + 1), reruns, round, world, failed
          applied := p.applied ++ [entry.1] }) ∨
    (entry.2.isWrite = false ∧ ∃ ids asks plans,
      (asks = p.asks ∨ ∃ ask, asks = p.asks ++ [(entry.1, ask)]) ∧
      (plans = p.plans ∨ ∃ plan, plans = p.plans ++ [(entry.1, plan)]) ∧
      fetchNeed worker p entry = { p with
        row := none, reruns := noted p.reruns entry.1, ids, asks, plans }) := by
  have hfailed : p.failed.isSome = false := by rw [hp]; rfl
  obtain ⟨index, need⟩ := entry
  have hwrote : ∀ {α : Type} (p' : Fetching K σ) (result : Except SyncError α × Round × σ)
      (as : α → Brought K), ∃ reruns round world failed,
        (reruns = p'.reruns ∨ ∃ brought, reruns = bring p'.reruns index brought) ∧
        p'.wrote index result as =
          { p' with reruns, round, world, applied := p'.applied ++ [index], failed } := by
    rintro α p' ⟨error | outcome, round, world⟩ as
    · exact ⟨_, _, _, _, .inl rfl, rfl⟩
    · exact ⟨_, _, _, p'.failed, .inr ⟨_, rfl⟩, rfl⟩
  by_cases hwrite : need.isWrite = true
  · by_cases hrow : p.row = some index
    · refine .inr (.inl ⟨hwrite, hrow, ?_⟩)
      cases need <;> simp only [Need.isWrite, reduceCtorEq] at hwrite
      all_goals
        simp only [fetchNeed, hfailed, hrow, Need.isWrite, decide_true, Bool.and_true, if_true,
          Bool.not_true, Bool.and_false, Bool.false_eq_true, if_false]
        obtain ⟨reruns, round, world, failed, hreruns, heq⟩ := hwrote
          { p with row := some (index + 1), reruns := noted p.reruns index } _ _
        exact ⟨reruns, round, world, failed, hreruns, heq⟩
    · refine .inl ⟨hwrite, hrow, ?_⟩
      simp [fetchNeed, hfailed, hwrite, hrow]
  · rw [Bool.not_eq_true] at hwrite
    refine .inr (.inr ⟨hwrite, ?_⟩)
    have hread : fetchNeed worker p (index, need) = match need with
        | .previews found => { p with
            row := none, reruns := noted p.reruns index
            ids := found.foldl (fun ids id =>
              if id ∉ ids ∧ ids.length < PREVIEW_BATCH then ids ++ [id] else ids) p.ids }
        | .bodies ask => { p with
            row := none, reruns := noted p.reruns index, asks := p.asks ++ [(index, ask)] }
        | .search plan => { p with
            row := none, reruns := noted p.reruns index, plans := p.plans ++ [(index, plan)] }
        | _ => p := by
      cases need <;> simp only [Need.isWrite, reduceCtorEq] at hwrite <;>
        simp [fetchNeed, hfailed, Need.isWrite]
    cases need <;> simp only [Need.isWrite, reduceCtorEq] at hwrite
    · exact ⟨_, _, _, .inl rfl, .inl rfl, hread⟩
    · exact ⟨_, _, _, .inr ⟨_, rfl⟩, .inl rfl, hread⟩
    · exact ⟨_, _, _, .inl rfl, .inr ⟨_, rfl⟩, hread⟩

theorem fetchNeed_failed (hp : p.failed.isSome = true) (entry : Nat × Need K) :
    fetchNeed worker p entry = p := by
  rw [fetchNeed, if_pos hp]

theorem fetchLoop_failed (hp : p.failed.isSome = true) (needs : List (Nat × Need K)) :
    needs.foldl (fetchNeed worker) p = p := by
  induction needs with
  | nil => rfl
  | cons entry needs ih => rw [List.foldl_cons, fetchNeed_failed hp, ih]

/-! ## One round -/

/-- The writes a round runs: those of its needs that stand in a row from the place `next` on. -/
def rowFrom (next : Nat) : List (Nat × Need K) → List (Nat × Need K)
  | [] => []
  | (index, need) :: rest =>
    if need.isWrite ∧ index = next then (index, need) :: rowFrom (next + 1) rest else []

omit [DecidableEq K.EmailId] in
theorem rowFrom_fst (needs : List (Nat × Need K)) (next : Nat) :
    (rowFrom next needs).map Prod.fst = List.range' next (rowFrom next needs).length := by
  induction needs generalizing next with
  | nil => rfl
  | cons entry needs ih =>
    obtain ⟨index, need⟩ := entry
    rw [rowFrom]
    split
    · rename_i h
      rw [List.map_cons, List.length_cons, List.range'_succ, ih, h.2]
    · rfl

/-- What the needs of a round do to what it found: the writes that ran are the first of their row,
each of a call that runs again. -/
structure Fetches (needs : List (Nat × Need K)) (p q : Fetching K σ) (ran : List Nat) : Prop where
  applied : q.applied = p.applied ++ ran
  first : ran <+: p.row.elim [] fun next => (rowFrom next needs).map Prod.fst
  noted : ∀ m ∈ ran, m ∈ q.reruns.map Prod.fst
  kept : ∀ m ∈ p.reruns.map Prod.fst, m ∈ q.reruns.map Prod.fst
  named : ∀ m ∈ q.reruns.map Prod.fst, m ∈ p.reruns.map Prod.fst ∨ m ∈ needs.map Prod.fst

variable (worker) in
theorem fetchLoop (needs : List (Nat × Need K)) (p : Fetching K σ) :
    ∃ ran, Fetches needs p (needs.foldl (fetchNeed worker) p) ran := by
  induction needs generalizing p with
  | nil => exact ⟨[], ⟨(List.append_nil _).symm, List.nil_prefix, by simp, fun _ h => h,
      fun _ h => .inl h⟩⟩
  | cons entry needs ih =>
    rw [List.foldl_cons]
    cases hp : p.failed with
    | some error =>
      rw [fetchNeed_failed (by rw [hp]; rfl), fetchLoop_failed (by rw [hp]; rfl)]
      exact ⟨[], ⟨(List.append_nil _).symm, List.nil_prefix, by simp, fun _ h => h,
        fun _ h => .inl h⟩⟩
    | none =>
      obtain ⟨ran, h⟩ := ih (fetchNeed worker p entry)
      rcases fetchNeed_cases worker hp entry with
        ⟨hwrite, hrow, heq⟩ | ⟨hwrite, hrow, reruns, round, world, failed, hreruns, heq⟩ |
          ⟨hwrite, ids, asks, plans, -, -, heq⟩
      · rw [heq] at h ⊢
        have hnone : ran = [] := List.prefix_nil.1 h.first
        subst hnone
        refine ⟨[], ⟨h.applied, List.nil_prefix, by simp, h.kept, fun m hm => ?_⟩⟩
        exact (h.named m hm).imp_right (List.mem_cons_of_mem _)
      · rw [heq] at h ⊢
        have hfst := wrote_fst hreruns
        have hkept : ∀ m, m ∈ p.reruns.map Prod.fst ∨ m = entry.1 → m ∈ reruns.map Prod.fst :=
          fun m hm => hfst ▸ mem_noted_fst.2 hm
        refine ⟨entry.1 :: ran,
          ⟨?_, ?_, ?_, fun m hm => h.kept m (hkept m (.inl hm)), fun m hm => ?_⟩⟩
        · rw [h.applied, List.append_assoc]
          rfl
        · rw [hrow]
          change _ <+: (rowFrom entry.1 (entry :: needs)).map Prod.fst
          rw [rowFrom, if_pos ⟨hwrite, rfl⟩]
          exact List.cons_prefix_cons.2 ⟨rfl, h.first⟩
        · intro m hm
          rcases List.mem_cons.1 hm with rfl | hm
          · exact h.kept _ (hkept _ (.inr rfl))
          · exact h.noted m hm
        · rcases h.named m hm with hm | hm
          · rw [hfst] at hm
            exact (mem_noted_fst.1 hm).imp_right fun hm => List.mem_cons.2 (.inl hm)
          · exact .inr (List.mem_cons_of_mem _ hm)
      · rw [heq] at h ⊢
        have hnone : ran = [] := List.prefix_nil.1 h.first
        subst hnone
        refine ⟨[], ⟨h.applied, List.nil_prefix, by simp,
          fun m hm => h.kept m (mem_noted_fst.2 (.inl hm)), fun m hm => ?_⟩⟩
        rcases h.named m hm with hm | hm
        · exact (mem_noted_fst.1 hm).imp_right fun hm => List.mem_cons.2 (.inl hm)
        · exact .inr (List.mem_cons_of_mem _ hm)

/-- A round runs its first need's call again. -/
theorem fetchLoop_head {rest : List (Nat × Need K)} (hp : p.failed = none)
    (hrow : p.row = some entry.1) :
    entry.1 ∈ ((entry :: rest).foldl (fetchNeed worker) p).reruns.map Prod.fst := by
  rw [List.foldl_cons]
  obtain ⟨ran, h⟩ := fetchLoop worker rest (fetchNeed worker p entry)
  refine h.kept _ ?_
  rcases fetchNeed_cases worker hp entry with
    ⟨-, hout, -⟩ | ⟨-, -, reruns, round, world, failed, hreruns, heq⟩ |
      ⟨-, ids, asks, plans, -, -, heq⟩
  · exact absurd hrow hout
  · rw [heq]
    exact wrote_fst hreruns ▸ mem_noted_fst.2 (.inr rfl)
  · rw [heq]
    exact mem_noted_fst.2 (.inr rfl)

/-! ## The parts behind the writes -/

/-- Two rounds that run the same calls again and ran the same writes. -/
def Alike (p q : Fetching K σ) : Prop :=
  q.reruns.map Prod.fst = p.reruns.map Prod.fst ∧ q.applied = p.applied

variable (worker) in
omit [DecidableEq K.EmailId] in
theorem fillPreviews_alike (p : Fetching K σ) : Alike p (fillPreviews worker p) := by
  rw [fillPreviews]
  split <;> exact ⟨rfl, rfl⟩

omit [DecidableEq K.EmailId] in
theorem foldl_bring_fst {α : Type} (l : List α) (index : α → Nat) (brought : α → Brought K)
    (reruns : List (Nat × Brought K)) :
    (l.foldl (fun reruns a => bring reruns (index a) (brought a)) reruns).map Prod.fst =
      reruns.map Prod.fst := by
  induction l generalizing reruns with
  | nil => rfl
  | cons a l ih => rw [List.foldl_cons, ih, bring_fst]

variable (worker) in
omit [DecidableEq K.EmailId] in
theorem fillBodies_alike (noBodies : K.Bodies) (p : Fetching K σ) :
    Alike p (fillBodies worker noBodies p) := by
  rw [fillBodies]
  split
  · exact ⟨rfl, rfl⟩
  · split
    · exact ⟨foldl_bring_fst _ (fun a : (Nat × K.BodyAsk) × K.Bodies => a.1.1) _ _, rfl⟩
    · split
      · exact ⟨rfl, rfl⟩
      · exact ⟨foldl_bring_fst _ Prod.fst _ _, rfl⟩

variable (worker) in
omit [DecidableEq K.EmailId] in
theorem searchAll_alike (p : Fetching K σ) : Alike p (searchAll worker p) := by
  rw [searchAll]
  split
  · exact ⟨rfl, rfl⟩
  · rename_i hfailed
    clear hfailed
    generalize p.plans = plans
    induction plans generalizing p with
    | nil => exact ⟨rfl, rfl⟩
    | cons plan plans ih =>
      rw [List.foldl_cons]
      obtain ⟨hfst, happlied⟩ := ih (searchOne worker p plan)
      exact ⟨hfst.trans bring_fst, happlied⟩

variable (worker) in
theorem fetched_alike (noBodies : K.Bodies) (needs : List (Nat × Need K)) (carried : Carried)
    (world : σ) (applied : List Nat) :
    Alike (needs.foldl (fetchNeed worker) (fetchStart needs carried world applied))
      (fetched worker noBodies needs carried world applied) := by
  set loop := needs.foldl (fetchNeed worker) (fetchStart needs carried world applied)
  have h₁ := fillPreviews_alike worker loop
  have h₂ := fillBodies_alike worker noBodies (fillPreviews worker loop)
  have h₃ := searchAll_alike worker
    (fillBodies worker noBodies (fillPreviews worker loop))
  exact ⟨h₃.1.trans (h₂.1.trans h₁.1), h₃.2.trans (h₂.2.trans h₁.2)⟩

/-! ## One pass -/

variable {methods : Methods K σ} {capabilities : Using} {world : σ} {calls : List Invocation}
  {first : Option Nat} {answered : Answered K} {noBodies : K.Bodies} {request : Request}
  {r : Running K σ}

omit [DecidableEq K.EmailId] in
/-- Only `Email/set` leaves a write of emails, and only under its capability. -/
theorem run_left {had : Option (Brought K)} {call : Invocation} {previous : List Invocation}
    {budget : Nat} {ask : K.SetAsk}
    (h : .write ask ∈ (run methods capabilities world had call previous budget).1.left) :
    call.method = "Email/set" ∧ capabilities.mail = true := by
  by_contra hmethod
  have hdispatch : ∀ arguments, .write ask ∉
      (dispatch methods capabilities world had call.method arguments).2.2 := by
    intro arguments hask
    rw [dispatch, if_neg hmethod] at hask
    split at hask
    · simp at hask
    · split at hask
      · simp at hask
      · exact absurd (methods.read_leaves hask) (by simp [Need.isWrite])
  rw [run] at h
  split at h
  · simp at h
  · rename_i arguments budget _
    have hnot := hdispatch arguments
    split at h <;> rename_i hd <;> rw [hd] at hnot <;> exact hnot h

/-- A need of a pass: of a call that runs in it with nothing brought, an `Email/set` where it is a
write of emails. -/
structure LeftBy (capabilities : Using) (calls : List (Invocation × Nat)) (first : Option Nat)
    (brought : List (Nat × Brought K)) (entry : Nat × Need K) : Prop where
  fresh : hadOf brought entry.1 = none
  starts : ∀ i, first = some i → i ≤ entry.1
  call : ∃ call, (call, entry.1) ∈ calls ∧
    ∀ ask, entry.2 = .write ask → call.method = "Email/set" ∧ capabilities.mail = true

omit [DecidableEq K.EmailId] in
variable (methods capabilities world first) in
theorem answerCall_needs (pass : Answered K × Nat) (call : Invocation × Nat) :
    (answerCall methods capabilities world first pass call).1.brought = pass.1.brought ∧
      ∃ new,
        (answerCall methods capabilities world first pass call).1.needs = pass.1.needs ++ new ∧
        ∀ entry ∈ new,
          entry.1 = call.2 ∧ LeftBy capabilities [call] first pass.1.brought entry := by
  obtain ⟨call, index⟩ := call
  simp only [answerCall]
  split
  · exact ⟨rfl, [], (List.append_nil _).symm, by simp⟩
  · rename_i hfirst
    refine ⟨rfl, ?_⟩
    by_cases hnone : (hadOf pass.1.brought index).isNone = true
    · simp only [hnone, if_true]
      refine ⟨_, rfl, fun entry hentry => ?_⟩
      obtain ⟨need, hneed, rfl⟩ := List.mem_map.1 hentry
      refine ⟨rfl, ⟨Option.isNone_iff_eq_none.1 hnone, fun i hi => ?_, call, by simp, ?_⟩⟩
      · rw [hi] at hfirst
        simpa using hfirst
      · rintro ask rfl
        exact run_left hneed
    · simp only [hnone, Bool.false_eq_true, if_false]
      exact ⟨[], (List.append_nil _).symm, by simp⟩

omit [DecidableEq K.EmailId] in
variable (methods capabilities world first) in
/-- What one pass leaves, in the order of its calls. -/
theorem answerLoop_needs (calls : List (Invocation × Nat))
    (horder : (calls.map Prod.snd).Pairwise (· < ·)) (pass : Answered K × Nat)
    (hsorted : pass.1.needs.Pairwise fun a b => a.1 ≤ b.1)
    (hbelow : ∀ entry ∈ pass.1.needs, ∀ i ∈ calls.map Prod.snd, entry.1 < i) :
    (calls.foldl (answerCall methods capabilities world first) pass).1.brought = pass.1.brought ∧
    (calls.foldl (answerCall methods capabilities world first) pass).1.needs.Pairwise
      (fun a b => a.1 ≤ b.1) ∧
    ∀ entry ∈ (calls.foldl (answerCall methods capabilities world first) pass).1.needs,
      entry ∈ pass.1.needs ∨ LeftBy capabilities calls first pass.1.brought entry := by
  induction calls generalizing pass with
  | nil => exact ⟨rfl, hsorted, fun _ h => .inl h⟩
  | cons call calls ih =>
    rw [List.foldl_cons]
    obtain ⟨hbrought, new, hneeds, hnew⟩ := answerCall_needs methods capabilities world
      first pass call
    rw [List.map_cons, List.pairwise_cons] at horder
    have hsame : ∀ a ∈ new, ∀ b ∈ new, a.1 ≤ b.1 :=
      fun a ha b hb => by rw [(hnew a ha).1, (hnew b hb).1]
    have hjoin : ∀ a ∈ pass.1.needs, ∀ b ∈ new, a.1 ≤ b.1 := by
      intro a ha b hb
      rw [(hnew b hb).1]
      exact (hbelow a ha _ List.mem_cons_self).le
    obtain ⟨hb, hs, hm⟩ := ih horder.2 (answerCall methods capabilities world first pass call)
      (by
        rw [hneeds]
        exact List.pairwise_append.2 ⟨hsorted, List.Pairwise.imp_of_mem
          (fun ha hb _ => hsame _ ha _ hb) (List.pairwise_of_forall fun _ _ => trivial), hjoin⟩)
      (by
        intro entry hentry i hi
        rw [hneeds] at hentry
        rcases List.mem_append.1 hentry with hentry | hentry
        · exact hbelow entry hentry i (List.mem_cons_of_mem _ hi)
        · rw [(hnew entry hentry).1]
          exact horder.1 i hi)
    refine ⟨hb.trans hbrought, hs, fun entry hentry => ?_⟩
    rcases hm entry hentry with hentry | hleft
    · rw [hneeds] at hentry
      refine (List.mem_append.1 hentry).imp id fun hentry => ?_
      obtain ⟨-, hfresh, hfrom, called, hcalled, hwrite⟩ := hnew entry hentry
      rw [List.mem_singleton] at hcalled
      exact ⟨hfresh, hfrom, called, hcalled ▸ List.mem_cons_self, hwrite⟩
    · obtain ⟨hfresh, hfrom, called, hcalled, hwrite⟩ := hleft
      exact .inr ⟨hbrought ▸ hfresh, hfrom, called, List.mem_cons_of_mem _ hcalled, hwrite⟩

omit [DecidableEq K.EmailId] in
variable (methods capabilities world calls first answered) in
theorem answer_needs :
    (answer methods capabilities world calls first answered).brought = answered.brought ∧
    (answer methods capabilities world calls first answered).needs.Pairwise
      (fun a b => a.1 ≤ b.1) ∧
    ∀ entry ∈ (answer methods capabilities world calls first answered).needs,
      LeftBy capabilities calls.zipIdx first answered.brought entry := by
  have horder : (calls.zipIdx.map Prod.snd).Pairwise (· < ·) := by
    rw [List.zipIdx_map_snd]
    exact List.pairwise_lt_range'
  obtain ⟨hbrought, hsorted, hmem⟩ := answerLoop_needs methods capabilities world first
    calls.zipIdx horder
    ({ answered with needs := [] }, References.MAX_REFERENCE_WEIGHT) List.Pairwise.nil (by simp)
  exact ⟨hbrought, hsorted, fun entry hentry => (hmem entry hentry).resolve_left List.not_mem_nil⟩

/-! ## A whole request -/

/-- What a request keeps: its writes ran in the order of their calls, each once, and what it still
needs stands behind every write that ran. -/
structure InOrder (request : Request) (r : Running K σ) : Prop where
  applied : r.applied.Pairwise (· < ·)
  sorted : r.failed = none → r.answered.needs.Pairwise fun a b => a.1 ≤ b.1
  behind : r.failed = none → ∀ i ∈ r.applied, ∀ entry ∈ r.answered.needs, i < entry.1
  writes : r.failed = none → ∀ entry ∈ r.answered.needs, ∃ call,
    request.methodCalls[entry.1]? = some call ∧
      ∀ ask, entry.2 = .write ask → call.method = "Email/set" ∧ request.capabilities.mail = true

/-- What one round keeps and brings: its writes are of the row its needs begin with, and its first
call is the first to run again. -/
structure Rounds (r : Running K σ) (p : Fetching K σ) (ran : List Nat) : Prop where
  applied : p.applied = r.applied ++ ran
  row : ∃ next, (r.answered.needs.head?.map Prod.fst = some next) ∧ ∃ length,
    ran = List.range' next length
  noted : ∀ m ∈ ran, m ∈ p.reruns.map Prod.fst
  first : (p.reruns.map Prod.fst).min? = r.answered.needs.head?.map Prod.fst

variable (worker noBodies) in
theorem fetched_rounds (hsorted : r.answered.needs.Pairwise fun a b => a.1 ≤ b.1)
    (hneeds : r.answered.needs ≠ []) :
    ∃ ran, Rounds r (fetched worker noBodies r.answered.needs r.carried r.world r.applied) ran := by
  obtain ⟨entry, rest, hcons⟩ := List.exists_cons_of_ne_nil hneeds
  set loop := r.answered.needs.foldl (fetchNeed worker)
    (fetchStart r.answered.needs r.carried r.world r.applied) with hloop
  have halike := fetched_alike worker noBodies r.answered.needs r.carried r.world r.applied
  rw [← hloop] at halike
  obtain ⟨ran, h⟩ := fetchLoop worker r.answered.needs
    (fetchStart r.answered.needs r.carried r.world r.applied)
  rw [← hloop] at h
  have hrow : (fetchStart r.answered.needs r.carried r.world r.applied).row = some entry.1 := by
    rw [hcons]
    rfl
  have hhead : entry.1 ∈ loop.reruns.map Prod.fst := by
    rw [hloop, hcons] at *
    exact fetchLoop_head rfl rfl
  refine ⟨ran, ⟨halike.2.trans h.applied, ⟨entry.1, by rw [hcons]; rfl, ?_⟩,
    fun m hm => halike.1 ▸ h.noted m hm, ?_⟩⟩
  · obtain ⟨behind, hbehind⟩ := h.first
    rw [hrow] at hbehind
    change _ = (rowFrom entry.1 r.answered.needs).map Prod.fst at hbehind
    rw [rowFrom_fst] at hbehind
    obtain ⟨length, -, hlength, -⟩ := List.range'_eq_append_iff.1 hbehind.symm
    exact ⟨length, hlength⟩
  · rw [halike.1, hcons]
    change _ = some entry.1
    refine List.min?_eq_some_iff.2 ⟨hhead, fun m hm => ?_⟩
    rcases h.named m hm with hm | hm
    · simp [fetchStart] at hm
    · rw [hcons] at hm hsorted
      rcases List.mem_cons.1 hm with rfl | hm
      · exact le_rfl
      · obtain ⟨other, hother, rfl⟩ := List.mem_map.1 hm
        exact (List.pairwise_cons.1 hsorted).1 other hother

omit [DecidableEq K.EmailId] in
theorem hadOf_append {brought more : List (Nat × Brought K)} {m : Nat}
    (hm : m ∈ more.map Prod.fst) : hadOf (brought ++ more) m ≠ none := by
  obtain ⟨entry, hentry, rfl⟩ := List.mem_map.1 hm
  rw [hadOf, Ne, Option.map_eq_none_iff, List.find?_eq_none]
  intro h
  exact absurd (h entry (List.mem_append_right _ hentry)) (by simp)

theorem InOrder.pass (h : InOrder request r) :
    InOrder request (pass worker methods noBodies request r) := by
  rw [Requests.pass]
  split
  · exact h
  · rename_i hgo
    rw [Bool.or_eq_true, not_or, Bool.not_eq_true, Option.isSome_eq_false_iff,
      Option.isNone_iff_eq_none, List.isEmpty_iff] at hgo
    obtain ⟨hfine, hneeds⟩ := hgo
    obtain ⟨ran, hround⟩ := fetched_rounds worker noBodies (h.sorted hfine) hneeds
    obtain ⟨next, hnext, length, hran⟩ := hround.row
    obtain ⟨head, rest, hcons⟩ := List.exists_cons_of_ne_nil hneeds
    obtain rfl : head.1 = next := by
      rw [hcons] at hnext
      exact Option.some.inj hnext
    have hbefore : ∀ i ∈ r.applied, i < head.1 :=
      fun i hi => h.behind hfine i hi head (hcons ▸ List.mem_cons_self)
    have happlied : (fetched worker noBodies r.answered.needs r.carried r.world
        r.applied).applied.Pairwise (· < ·) := by
      rw [hround.applied]
      refine List.pairwise_append.2 ⟨h.applied, hran ▸ List.pairwise_lt_range', ?_⟩
      intro i hi j hj
      rw [hran, List.mem_range'_1] at hj
      exact lt_of_lt_of_le (hbefore i hi) hj.1
    dsimp only
    split
    · rename_i hfailed
      have hnot : (fetched worker noBodies r.answered.needs r.carried r.world r.applied).failed ≠
          none := Option.isSome_iff_ne_none.1 hfailed
      exact ⟨happlied, fun hc => absurd hc hnot, fun hc => absurd hc hnot,
        fun hc => absurd hc hnot⟩
    · rw [hround.first, hnext, Option.getD_some]
      obtain ⟨hbrought, hsorted, hleft⟩ := answer_needs methods request.capabilities
        (fetched worker noBodies r.answered.needs r.carried r.world r.applied).world
        request.methodCalls (some head.1) { r.answered with brought := r.answered.brought ++
          (fetched worker noBodies r.answered.needs r.carried r.world r.applied).reruns }
      refine ⟨happlied, fun _ => hsorted, fun _ i hi entry hentry => ?_, fun _ entry hentry => ?_⟩
      · have hstands := hleft entry hentry
        have hfrom := hstands.starts head.1 rfl
        rw [hround.applied] at hi
        rcases List.mem_append.1 hi with hi | hi
        · exact lt_of_lt_of_le (hbefore i hi) hfrom
        · -- a call of the row was brought something, so it asks no more
          by_contra hnot
          refine hadOf_append (hround.noted entry.1 ?_) hstands.fresh
          rw [hran, List.mem_range'_1] at hi ⊢
          omega
      · obtain ⟨call, hcall, hwrite⟩ := (hleft entry hentry).call
        exact ⟨call, (List.mem_zipIdx_iff_getElem?.1 hcall), hwrite⟩

omit [DecidableEq K.EmailId] in
variable (methods request) in
theorem start_inOrder (world : σ) :
    InOrder request (start methods request world) := by
  obtain ⟨-, hsorted, hleft⟩ := answer_needs methods request.capabilities world
    request.methodCalls none ⟨[], [], [], []⟩
  refine ⟨List.Pairwise.nil, fun _ => hsorted, fun _ i hi => absurd hi List.not_mem_nil,
    fun _ entry hentry => ?_⟩
  obtain ⟨call, hcall, hwrite⟩ := (hleft entry hentry).call
  exact ⟨call, (List.mem_zipIdx_iff_getElem?.1 hcall), hwrite⟩

variable (worker methods noBodies request) in
/-- Every request keeps its writes in order, in at most its passes. -/
theorem handle_inOrder (world : σ) :
    InOrder request (handle worker methods noBodies request world) ∧
      (handle worker methods noBodies request world).passes ≤ MAX_PASSES := by
  have hrefused : ∀ (world : σ) (error : RequestError), InOrder request
      ({ answered := ⟨[], [], [], []⟩, carried := ⟨0, Table.empty⟩, world, passes := 0
         applied := [], failed := some error } : Running K σ) :=
    fun world error => ⟨List.Pairwise.nil, nofun, nofun, nofun⟩
  rw [handle]
  split
  · exact ⟨hrefused _ _, Nat.zero_le _⟩
  · split
    · exact ⟨hrefused _ _, Nat.zero_le _⟩
    · rename_i world _
      have hpasses : ∀ r : Running K σ,
          (pass worker methods noBodies request r).passes ≤ r.passes + 1 := by
        intro r
        rw [pass]
        split
        · exact Nat.le_succ _
        · dsimp only
          split
          · exact Nat.le_succ _
          · exact le_rfl
      have hone := start_inOrder methods request world
      refine ⟨hone.pass.pass, ?_⟩
      have h₁ := hpasses (start methods request world)
      have h₂ := hpasses (pass worker methods noBodies request (start methods request world))
      exact h₂.trans (Nat.succ_le_succ h₁)

end Huliho.Requests
