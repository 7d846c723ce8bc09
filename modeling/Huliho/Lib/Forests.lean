import Mathlib.Logic.Function.Basic
import Mathlib.Data.Finset.Card

/-!
# Forests of named nodes

A forest is kept as a table: each node has a parent, none at the top, and a name. `Rooted` says that
the way up from a node ends at the top, so a table in which every node is rooted has every parent it
names and no node that lies under itself (`Forest.not_lies`). A leaf is planted, a node moved and a
leaf felled by an update of one entry (`Forest.plant`, `Forest.move`, `Forest.fell`); a move needs a
new parent that does not lie under the node. `AtMost` bounds the children of each node by a count, and
`AtMost.update` says how far the count may follow such an update.
-/

namespace Huliho

variable {ι ν : Type*}

/-- The parent and the name of each node; none for what is no node. -/
abbrev Nodes (ι ν : Type*) := ι → Option (Option ι × ν)

/-- A node is another or lies anywhere under it. -/
inductive Lies (nodes : Nodes ι ν) (ancestor : ι) : ι → Prop
  | self : Lies nodes ancestor ancestor
  | under {node parent : ι} {name : ν} (h : nodes node = some (some parent, name))
      (hparent : Lies nodes ancestor parent) : Lies nodes ancestor node

/-- The way up from a node ends at the top. -/
inductive Rooted (nodes : Nodes ι ν) : ι → Prop
  | top {node : ι} {name : ν} (h : nodes node = some (none, name)) : Rooted nodes node
  | under {node parent : ι} {name : ν} (h : nodes node = some (some parent, name))
      (hparent : Rooted nodes parent) : Rooted nodes node

/-- Every node is rooted. -/
def Forest (nodes : Nodes ι ν) : Prop := ∀ node, nodes node ≠ none → Rooted nodes node

/-- No two nodes under one parent read alike. -/
def ReadApart {κ : Type*} (nodes : Nodes ι ν) (reading : Option ι → ν → κ) : Prop :=
  ∀ a b parent name other, nodes a = some (parent, name) → nodes b = some (parent, other) →
    reading parent name = reading parent other → a = b

/-- No node has more children than are counted. -/
def AtMost (nodes : Nodes ι ν) (count : ι → Nat) : Prop :=
  ∀ parent (children : List ι), children.Nodup →
    (∀ a ∈ children, ∃ name, nodes a = some (some parent, name)) → children.length ≤ count parent

variable {nodes : Nodes ι ν} {a b c node parent : ι} {name : ν}

theorem Lies.trans (hab : Lies nodes a b) (hbc : Lies nodes b c) : Lies nodes a c := by
  induction hbc with
  | self => exact hab
  | under h _ ih => exact .under h ih

theorem lies_iff : Lies nodes a b ↔
    b = a ∨ ∃ parent name, nodes b = some (some parent, name) ∧ Lies nodes a parent := by
  constructor
  · intro h
    cases h with
    | self => exact .inl rfl
    | under hnode hparent => exact .inr ⟨_, _, hnode, hparent⟩
  · rintro (rfl | ⟨parent, name, hnode, hparent⟩)
    · exact .self
    · exact .under hnode hparent

theorem Rooted.isNode (h : Rooted nodes node) : nodes node ≠ none := by
  cases h with
  | top h => exact ne_of_eq_of_ne h (Option.some_ne_none _)
  | under h _ => exact ne_of_eq_of_ne h (Option.some_ne_none _)

/-- **No rooted node lies under itself.** -/
theorem Rooted.not_lies (h : Rooted nodes node) :
    ∀ parent name, nodes node = some (some parent, name) → ¬ Lies nodes node parent := by
  induction h with
  | top htop =>
    intro parent name hparent
    rw [htop] at hparent
    cases hparent
  | @under node above name hnode _ ih =>
    intro parent name' hparent hlies
    obtain ⟨rfl, -⟩ : above = parent ∧ name = name' := by
      rw [hnode] at hparent
      simpa using hparent
    -- The parent would lie under its own child.
    cases hlies with
    | self => exact ih _ _ hnode .self
    | under habove hlies => exact ih _ _ habove (Lies.trans (.under hnode .self) hlies)

theorem Forest.not_lies (h : Forest nodes) (hnode : nodes node = some (some parent, name)) :
    ¬ Lies nodes node parent :=
  (h node (ne_of_eq_of_ne hnode (Option.some_ne_none _))).not_lies parent name hnode

/-- The parent of a node is a node. -/
theorem Forest.isNode_parent (h : Forest nodes) (hnode : nodes node = some (some parent, name)) :
    nodes parent ≠ none := by
  cases h node (ne_of_eq_of_ne hnode (Option.some_ne_none _)) with
  | top htop =>
    rw [htop] at hnode
    cases hnode
  | @under _ above other hunder habove =>
    obtain ⟨rfl, -⟩ : above = parent ∧ other = name := by
      rw [hunder] at hnode
      simpa using hnode
    exact habove.isNode

/-- A node counted as childless is a leaf. -/
theorem AtMost.leaf {count : ι → Nat} (h : AtMost nodes count) (hzero : count node = 0) (a : ι)
    (name : ν) : nodes a ≠ some (some node, name) := by
  intro ha
  have hone := h node [a] (List.nodup_singleton a) fun b hb => by
    rw [List.mem_singleton.1 hb]
    exact ⟨name, ha⟩
  rw [hzero] at hone
  exact absurd hone (Nat.not_succ_le_zero 0)

section Updates

variable [DecidableEq ι] {under : Option ι}

/-- What does not lie under a node stays rooted where the node goes. -/
theorem Rooted.of_not_lies {entry : Option (Option ι × ν)} (h : Rooted nodes a)
    (hlies : ¬ Lies nodes node a) : Rooted (Function.update nodes node entry) a := by
  induction h with
  | @top a name htop =>
    have hne : a ≠ node := fun heq => hlies (heq ▸ .self)
    exact .top (by rw [Function.update_of_ne hne, htop])
  | @under a above name hunder _ ih =>
    have hne : a ≠ node := fun heq => hlies (heq ▸ .self)
    refine .under (by rw [Function.update_of_ne hne, hunder]) (ih fun habove => ?_)
    exact hlies (.under hunder habove)

/-- A node put where its parent is rooted without it leaves every other node rooted. -/
theorem Forest.put (h : Forest nodes)
    (hunder : ∀ parent, under = some parent → Rooted nodes parent ∧ ¬ Lies nodes node parent) :
    Forest (Function.update nodes node (some (under, name))) := by
  have hself : Rooted (Function.update nodes node (some (under, name))) node := by
    cases under with
    | none => exact .top (Function.update_self _ _ _)
    | some parent =>
      obtain ⟨hrooted, hlies⟩ := hunder parent rfl
      exact .under (Function.update_self _ _ _) (hrooted.of_not_lies hlies)
  intro a ha
  by_cases hne : a = node
  · rw [hne]
    exact hself
  · rw [Function.update_of_ne hne] at ha
    induction h a ha with
    | @top a name htop => exact .top (by rw [Function.update_of_ne hne, htop])
    | @under a above name hunder habove ih =>
      refine .under (by rw [Function.update_of_ne hne, hunder]) ?_
      by_cases hnode : above = node
      · rw [hnode]
        exact hself
      · exact ih habove.isNode hnode

/-- A new leaf leaves a forest. -/
theorem Forest.plant (h : Forest nodes) (hnew : nodes node = none)
    (hunder : ∀ parent, under = some parent → nodes parent ≠ none) :
    Forest (Function.update nodes node (some (under, name))) := by
  refine h.put fun parent hparent => ⟨h parent (hunder parent hparent), fun hlies => ?_⟩
  -- Only the node itself lies under what is no node.
  have hnone : ∀ a, Lies nodes node a → a = node := by
    intro a ha
    induction ha with
    | self => rfl
    | @under a above name hnode _ ih =>
      subst ih
      exact absurd hnew (h.isNode_parent hnode)
  exact hunder parent hparent (hnone parent hlies ▸ hnew)

/-- A node moved to a parent that does not lie under it leaves a forest. -/
theorem Forest.move (h : Forest nodes)
    (hunder : ∀ parent, under = some parent → nodes parent ≠ none ∧ ¬ Lies nodes node parent) :
    Forest (Function.update nodes node (some (under, name))) :=
  h.put fun parent hparent =>
    ⟨h parent (hunder parent hparent).1, (hunder parent hparent).2⟩

/-- Without a node that has no child a forest is left. -/
theorem Forest.fell (h : Forest nodes) (hleaf : ∀ a name, nodes a ≠ some (some node, name)) :
    Forest (Function.update nodes node none) := by
  intro a ha
  by_cases hne : a = node
  · rw [hne, Function.update_self] at ha
    exact absurd rfl ha
  rw [Function.update_of_ne hne] at ha
  refine (h a ha).of_not_lies fun hlies => ?_
  have hself : ∀ a, Lies nodes node a → a = node := by
    intro a ha
    induction ha with
    | self => rfl
    | @under a above name hnode _ ih =>
      subst ih
      exact absurd hnode (hleaf a name)
  exact hne (hself a hlies)

theorem ReadApart.put {κ : Type*} {reading : Option ι → ν → κ} (h : ReadApart nodes reading)
    (hfree : ∀ a other, a ≠ node → nodes a = some (under, other) →
      reading under other ≠ reading under name) :
    ReadApart (Function.update nodes node (some (under, name))) reading := by
  intro a b parent first second ha hb hreading
  by_cases hne : a = node <;> by_cases hne' : b = node
  · rw [hne, hne']
  · rw [hne, Function.update_self] at ha
    rw [Function.update_of_ne hne'] at hb
    obtain ⟨rfl, rfl⟩ := Prod.mk.inj (Option.some.inj ha)
    exact absurd hreading.symm (hfree b second hne' hb)
  · rw [hne', Function.update_self] at hb
    rw [Function.update_of_ne hne] at ha
    obtain ⟨rfl, rfl⟩ := Prod.mk.inj (Option.some.inj hb)
    exact absurd hreading (hfree a first hne ha)
  · rw [Function.update_of_ne hne] at ha
    rw [Function.update_of_ne hne'] at hb
    exact h a b parent first second ha hb hreading

theorem ReadApart.fell {κ : Type*} {reading : Option ι → ν → κ} (h : ReadApart nodes reading) :
    ReadApart (Function.update nodes node none) reading := by
  intro a b parent first second ha hb hreading
  have hkept : ∀ {a entry}, Function.update nodes node none a = some entry →
      nodes a = some entry := by
    intro a entry ha
    by_cases hne : a = node
    · rw [hne, Function.update_self] at ha
      cases ha
    · rwa [Function.update_of_ne hne] at ha
  exact h a b parent first second (hkept ha) (hkept hb) hreading

/-- The count follows an update: one less for the parent the node leaves, one more for the one it
joins. -/
theorem AtMost.update {count count' : ι → Nat} {entry : Option (Option ι × ν)}
    (h : AtMost nodes count) (hcount : ∀ p,
      count p + (if entry.bind Prod.fst = some p then 1 else 0) ≤
        count' p + (if (nodes node).bind Prod.fst = some p then 1 else 0)) :
    AtMost (Function.update nodes node entry) count' := by
  intro p children hnodup hchildren
  have hkept : ∀ a ∈ children.erase node, ∃ name, nodes a = some (some p, name) := by
    intro a ha
    obtain ⟨hne, hin⟩ := hnodup.mem_erase_iff.1 ha
    obtain ⟨name, hname⟩ := hchildren a hin
    rw [Function.update_of_ne hne] at hname
    exact ⟨name, hname⟩
  have hlength : children.length ≤
      (children.erase node).length + (if entry.bind Prod.fst = some p then 1 else 0) := by
    by_cases hin : node ∈ children
    · obtain ⟨name, hname⟩ := hchildren node hin
      rw [Function.update_self] at hname
      rw [hname, Option.bind_some, if_pos rfl, List.length_erase_of_mem hin]
      omega
    · rw [List.erase_of_not_mem hin]
      omega
  have hcount := hcount p
  by_cases hparent : (nodes node).bind Prod.fst = some p
  · -- The node was a child too.
    have hmore := h p (node :: children.erase node)
      (List.nodup_cons.2 ⟨hnodup.not_mem_erase, hnodup.erase node⟩) fun a ha => by
        rcases List.mem_cons.1 ha with rfl | ha
        · obtain ⟨entry, hentry, hfirst⟩ := Option.bind_eq_some_iff.1 hparent
          exact ⟨entry.2, hentry.trans (congrArg some (Prod.ext hfirst rfl))⟩
        · exact hkept a ha
    rw [List.length_cons] at hmore
    rw [if_pos hparent] at hcount
    omega
  · have hmore := h p _ (hnodup.erase node) hkept
    rw [if_neg hparent] at hcount
    omega

end Updates

end Huliho
