import Huliho.Search.Pages

/-!
# The front of the results a search holds

The pages of a search, fetched behind one another, hold a **front** of the results: the first so
many, in the server's order. A page that starts within the front brings it on to where the page ends
(**`Held.landed`**, **`Front.landed`**), and what a front shows is what it has of the rows that show
(`Held.shown_eq`).
-/

namespace Huliho.Search

section

variable {α : Type} [DecidableEq α] {server : Results α} {row : SearchRow α}
variable {shows : α → Bool}

/-! ## A front of the results -/

/-- What the held pages have in common: numbered in turn, they hold a front of the results, each id
with its thread. -/
structure Held (server : Results α) (row : SearchRow α) : Prop where
  numbered : Numbered row
  front : row.ids = server.ids.take row.ids.length
  capacity : row.ids.length ≤ row.pages.length * windowSize
  threadIds : row.threadIds = row.ids.map fun id => (id, server.thread id)

/-- A search with its first page: it has the total, and a short last page ends the results. -/
structure Front (server : Results α) (row : SearchRow α) : Prop extends Held server row where
  opened : row.pages ≠ []
  total : row.total = some server.ids.length
  ends : row.hasMore = false → row.ids.length = server.ids.length

theorem Held.length_le (h : Held server row) : row.ids.length ≤ server.ids.length := by
  have hlength := congrArg List.length h.front
  rw [List.length_take] at hlength
  omega

theorem held_empty (server : Results α) : Held server SearchRow.empty where
  numbered := numbered_empty
  front := rfl
  capacity := Nat.zero_le _
  threadIds := rfl

theorem find?_paired {f : α → α} {l : List α} {id : α} (h : id ∈ l) :
    (l.map fun id => (id, f id)).find? (fun entry => entry.1 = id) = some (id, f id) := by
  induction l with
  | nil => exact absurd h List.not_mem_nil
  | cons other l ih =>
    by_cases heq : other = id
    · subst heq
      exact List.find?_cons_of_pos (decide_eq_true rfl)
    · rw [List.map_cons, List.find?_cons_of_neg (by simpa using heq)]
      exact ih ((List.mem_cons.1 h).resolve_left (Ne.symm heq))

/-- **A page that starts within the front brings the front on** to where the page ends. -/
theorem Held.landed (h : Held server row) {a : Nat} (ha : a ≤ row.ids.length) :
    Held server (row.landed server row.pages.length ((server.ids.drop a).take windowSize)) ∧
      (row.landed server row.pages.length ((server.ids.drop a).take windowSize)).ids =
        server.ids.take (max row.ids.length (a + windowSize)) := by
  have hids : (row.landed server row.pages.length ((server.ids.drop a).take windowSize)).ids =
      server.ids.take (max row.ids.length (a + windowSize)) := by
    rw [h.numbered.ids_landed, ← firsts_firsts_append, ← h.numbered.ids_eq]
    calc _ = firsts (server.ids.take row.ids.length ++ (server.ids.drop a).take windowSize) := by
          rw [← h.front]
      _ = _ := firsts_take_append_span server.nodup ha windowSize
  refine ⟨⟨h.numbered.landed _, ?_, ?_, ?_⟩, hids⟩
  · rw [hids, List.length_take, ← List.take_eq_take_min]
  · have hcapacity := h.capacity
    rw [hids, h.numbered.pages_landed, List.length_take, List.length_append,
      List.length_singleton, Nat.succ_mul]
    omega
  · -- an id of the page has the thread the page brought, a held one the thread it had
    rw [(h.numbered.landed _).ids_eq]
    refine List.map_congr_left fun id hid => ?_
    by_cases hnew : id ∈ (server.ids.drop a).take windowSize
    · simp only [if_pos hnew, Option.getD_some]
    · have hold : id ∈ row.ids := by
        rw [mem_firsts, h.numbered.pages_withPage, List.flatMap_append, List.flatMap_singleton] at hid
        rw [h.numbered.ids_eq, mem_firsts]
        exact (List.mem_append.1 hid).resolve_right hnew
      simp only [if_neg hnew]
      rw [h.threadIds, find?_paired hold, Option.map_some, Option.getD_some]

/-- The last page is the one that landed. -/
theorem Numbered.hasMore_landed (h : Numbered row) (ids : List α) :
    (row.landed server row.pages.length ids).hasMore = decide (ids.length = windowSize) := by
  rw [SearchRow.hasMore, SearchRow.lastPage, (h.landed ids).sorted_eq, h.pages_landed,
    List.getLast?_append, List.getLast?_singleton, Option.some_or]

/-- A short page that starts within the front ends the results. -/
theorem Held.ends_landed (h : Held server row) {a : Nat} (ha : a ≤ row.ids.length)
    (hmore : (row.landed server row.pages.length
      ((server.ids.drop a).take windowSize)).hasMore = false) :
    (row.landed server row.pages.length ((server.ids.drop a).take windowSize)).ids.length =
      server.ids.length := by
  rw [h.numbered.hasMore_landed, decide_eq_false_iff_not] at hmore
  have hend := span_of_short (l := server.ids) (a := a) (b := windowSize) (by
    have hle : ((server.ids.drop a).take windowSize).length ≤ windowSize := by
      rw [List.length_take]
      omega
    omega)
  rw [(h.landed ha).2, List.length_take]
  omega

/-- A search opens with its first page. -/
theorem front_opened (server : Results α) :
    Front server (SearchRow.empty.landed server 0 (fetchPage server 0 none)) ∧
      (SearchRow.empty.landed server 0 (fetchPage server 0 none)).ids =
        server.ids.take windowSize := by
  rw [fetchPage_none, Nat.zero_mul]
  obtain ⟨hheld, hids⟩ := (held_empty server).landed (Nat.zero_le _)
  refine ⟨{ hheld with opened := List.cons_ne_nil _ _, total := rfl, ends := ?_ }, ?_⟩
  · exact (held_empty server).ends_landed (Nat.zero_le _)
  · rw [Nat.zero_add] at hids
    exact hids.trans (congrArg (server.ids.take ·) (Nat.max_eq_right (Nat.zero_le _)))

/-- **A page that starts within a front leaves a front.** -/
theorem Front.landed (h : Front server row) {a : Nat} (ha : a ≤ row.ids.length) :
    Front server (row.landed server row.pages.length ((server.ids.drop a).take windowSize)) where
  toHeld := (h.toHeld.landed ha).1
  opened := by
    rw [h.numbered.pages_landed]
    exact List.append_ne_nil_of_right_ne_nil _ (List.cons_ne_nil _ _)
  total := by
    -- only the first page sets the total
    simp only [SearchRow.landed, SearchRow.withPage]
    rw [if_neg (fun hnone => h.opened (List.length_eq_zero_iff.1 hnone)), h.total]
  ends := h.ends_landed ha

/-! ## The rows a front shows -/

/-- Ids of threads of their own are all kept. -/
theorem foldl_apart {l rows : List α} (h : ((rows ++ l).map server.thread).Nodup) :
    l.foldl (fun rows id => if rows.any fun other => server.thread other = server.thread id
      then rows else rows ++ [id]) rows = rows ++ l := by
  induction l generalizing rows with
  | nil => exact (List.append_nil _).symm
  | cons id l ih =>
    have hnew : (rows.any fun other => server.thread other = server.thread id) = false := by
      refine List.any_eq_false.2 fun other hother => ?_
      rw [List.map_append, List.nodup_append] at h
      simpa using h.2.2 _ (List.mem_map_of_mem hother) _ (List.mem_map_of_mem List.mem_cons_self)
    rw [List.foldl_cons, hnew, if_neg Bool.false_ne_true,
      ih (by rwa [List.append_assoc, List.singleton_append]), List.append_assoc,
      List.singleton_append]

theorem Held.shown_eq (h : Held server row) :
    row.shown server shows = row.ids.filter shows := by
  rw [SearchRow.shown, foldl_apart, List.nil_append]
  rw [List.nil_append, h.front]
  exact server.apart.sublist
    ((List.filter_sublist.trans (List.take_sublist _ _)).map _)

/-- Every held id is of a thread of its own. -/
theorem Held.threads_eq (h : Held server row) : row.threads = row.ids.length := by
  have hthreads : row.threadIds.map Prod.snd = row.ids.map server.thread := by
    rw [h.threadIds, List.map_map]
    rfl
  have hapart : (row.ids.map server.thread).Nodup := by
    rw [h.front]
    exact server.apart.sublist ((List.take_sublist _ _).map _)
  rw [SearchRow.threads, hthreads, firsts_eq_self hapart, List.length_map]

end

end Huliho.Search
