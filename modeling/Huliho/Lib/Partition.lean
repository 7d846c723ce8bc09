import Mathlib.Logic.Relation

/-!
# A partition kept by keys

Items arrive one by one, each under a set of **keys**, and stand in **classes**: an item joins
every class one of its keys points at, all of which become one, and its keys point at that class
afterwards. `Partition` is what holds between two arrivals, `Partition.join` the arrival, and
`Partition.same_iff` what it is for — two items stand in one class exactly when a chain of items
that pairwise share a key connects them, whatever the order they arrived in.

Classes and keys are relations, so a host may keep them in any tables it likes.
-/

namespace Huliho

variable {α κ θ : Type*}

/-- Two of the items at hand that share a key. -/
def Linked (names : α → κ → Prop) (items : α → Prop) (a b : α) : Prop :=
  items a ∧ items b ∧ ∃ k, names a k ∧ names b k

theorem Linked.mono {names : α → κ → Prop} {items items' : α → Prop} (h : ∀ a, items a → items' a)
    {a b : α} (hl : Linked names items a b) : Linked names items' a b :=
  ⟨h a hl.1, h b hl.2.1, hl.2.2⟩

/-- What stands between two arrivals: `inClass a c` says that item `a` stands in class `c`,
`points k c` that key `k` points at it. -/
structure Partition (names : α → κ → Prop) (inClass : α → θ → Prop) (points : κ → θ → Prop) :
    Prop where
  /-- an item stands in one class -/
  unique : ∀ {a c d}, inClass a c → inClass a d → c = d
  /-- a key points at one class -/
  single : ∀ {k c d}, points k c → points k d → c = d
  /-- every key of an item points at the item's class -/
  hashed : ∀ {a c k}, inClass a c → names a k → points k c
  /-- a key that points at a class is a key of an item there -/
  named : ∀ {k c}, points k c → ∃ a, inClass a c ∧ names a k
  /-- the items of a class hang together -/
  chained : ∀ {a b c}, inClass a c → inClass b c →
    Relation.EqvGen (Linked names fun a => ∃ c, inClass a c) a b

namespace Partition

variable {names : α → κ → Prop} {inClass inClass' : α → θ → Prop} {points points' : κ → θ → Prop}

/-- **One class is one chain.** -/
theorem same_iff (h : Partition names inClass points) {a b : α} {c d : θ} (ha : inClass a c)
    (hb : inClass b d) :
    c = d ↔ Relation.EqvGen (Linked names fun a => ∃ c, inClass a c) a b := by
  constructor
  · rintro rfl
    exact h.chained ha hb
  · intro hab
    -- Along the chain every item that stands somewhere stands in one class.
    have hstep : ∀ {x y}, Relation.EqvGen (Linked names fun a => ∃ c, inClass a c) x y →
        ∀ c, inClass x c ↔ inClass y c := by
      intro x y hxy
      induction hxy with
      | rel x y hl =>
        obtain ⟨⟨cx, hx⟩, ⟨cy, hy⟩, k, hkx, hky⟩ := hl
        obtain rfl := h.single (h.hashed hx hkx) (h.hashed hy hky)
        intro c
        constructor
        · intro hc
          rwa [h.unique hc hx]
        · intro hc
          rwa [h.unique hc hy]
      | refl x => exact fun c => Iff.rfl
      | symm x y _ ih => exact fun c => (ih c).symm
      | trans x y z _ _ ihxy ihyz => exact fun c => (ihxy c).trans (ihyz c)
    exact h.unique ((hstep hab c).1 ha) hb

/-- The classes an item joins: the ones its keys point at. -/
def Joins (names : α → κ → Prop) (points : κ → θ → Prop) (x : α) (e : θ) : Prop :=
  ∃ k, names x k ∧ points k e

/-- **An arrival.** The item `x`, new here, takes the class `c`; every class one of its keys points
at becomes `c`, and `c` is one of them or, where there is none, new. -/
theorem join (h : Partition names inClass points) {x : α} {c : θ} (hx : ∀ d, ¬ inClass x d)
    (hc : Joins names points x c ∨ ∀ a, ¬ inClass a c)
    (hin : ∀ a d, inClass' a d ↔ (a = x ∧ d = c) ∨
      ∃ e, inClass a e ∧ (Joins names points x e ∧ d = c ∨ ¬ Joins names points x e ∧ d = e))
    (hpt : ∀ k d, points' k d ↔ (names x k ∧ d = c) ∨ (¬ names x k ∧
      ∃ e, points k e ∧ (Joins names points x e ∧ d = c ∨ ¬ Joins names points x e ∧ d = e))) :
    Partition names inClass' points' := by
  have hold : ∀ a, (∃ d, inClass a d) → ∃ d, inClass' a d := by
    rintro a ⟨e, he⟩
    by_cases hm : Joins names points x e
    · exact ⟨c, (hin a c).2 (.inr ⟨e, he, .inl ⟨hm, rfl⟩⟩)⟩
    · exact ⟨e, (hin a e).2 (.inr ⟨e, he, .inr ⟨hm, rfl⟩⟩)⟩
  have hnew : inClass' x c := (hin x c).2 (.inl ⟨rfl, rfl⟩)
  have hchain : ∀ {a b}, Relation.EqvGen (Linked names fun a => ∃ d, inClass a d) a b →
      Relation.EqvGen (Linked names fun a => ∃ d, inClass' a d) a b :=
    fun hab => Relation.EqvGen.mono (fun _ _ hl => hl.mono hold) _ _ hab
  -- An item of a class that became `c` hangs on `x` by the key that took the class along.
  have hjoined : ∀ {a e}, inClass a e → Joins names points x e →
      Relation.EqvGen (Linked names fun a => ∃ d, inClass' a d) x a := by
    rintro a e ha ⟨k, hk, hke⟩
    obtain ⟨b, hb, hbk⟩ := h.named hke
    refine .trans _ b _ (.rel _ _ ⟨⟨c, hnew⟩, hold b ⟨e, hb⟩, k, hk, hbk⟩) ?_
    exact hchain (h.chained hb ha)
  -- So does every item of `c`, since `c` is such a class or holds `x` alone.
  have hinto : ∀ {a}, inClass' a c →
      Relation.EqvGen (Linked names fun a => ∃ d, inClass' a d) x a := by
    intro a ha
    rcases (hin a c).1 ha with ⟨rfl, -⟩ | ⟨e, he, ⟨hm, -⟩ | ⟨hm, rfl⟩⟩
    · exact .refl _
    · exact hjoined he hm
    · rcases hc with hc | hc
      · exact absurd hc hm
      · exact absurd he (hc a)
  refine ⟨?_, ?_, ?_, ?_, ?_⟩
  · intro a d d' hd hd'
    rcases (hin a d).1 hd with ⟨rfl, rfl⟩ | ⟨e, he, hd⟩
    · rcases (hin a d').1 hd' with ⟨-, rfl⟩ | ⟨e, he, -⟩
      · rfl
      · exact absurd he (hx e)
    · rcases (hin a d').1 hd' with ⟨rfl, -⟩ | ⟨e', he', hd'⟩
      · exact absurd he (hx e)
      · obtain rfl := h.unique he he'
        rcases hd with ⟨hm, rfl⟩ | ⟨hm, rfl⟩ <;> rcases hd' with ⟨hm', rfl⟩ | ⟨hm', rfl⟩
        · rfl
        · exact absurd hm hm'
        · exact absurd hm' hm
        · rfl
  · intro k d d' hd hd'
    rcases (hpt k d).1 hd with ⟨hk, rfl⟩ | ⟨hk, e, he, hd⟩
    · rcases (hpt k d').1 hd' with ⟨-, rfl⟩ | ⟨hk', -⟩
      · rfl
      · exact absurd hk hk'
    · rcases (hpt k d').1 hd' with ⟨hk', -⟩ | ⟨-, e', he', hd'⟩
      · exact absurd hk' hk
      · obtain rfl := h.single he he'
        rcases hd with ⟨hm, rfl⟩ | ⟨hm, rfl⟩ <;> rcases hd' with ⟨hm', rfl⟩ | ⟨hm', rfl⟩
        · rfl
        · exact absurd hm hm'
        · exact absurd hm' hm
        · rfl
  · intro a d k hd hk
    by_cases hxk : names x k
    · refine (hpt k d).2 (.inl ⟨hxk, ?_⟩)
      rcases (hin a d).1 hd with ⟨-, rfl⟩ | ⟨e, he, ⟨-, rfl⟩ | ⟨hm, -⟩⟩
      · rfl
      · rfl
      · exact absurd ⟨k, hxk, h.hashed he hk⟩ hm
    · refine (hpt k d).2 (.inr ⟨hxk, ?_⟩)
      rcases (hin a d).1 hd with ⟨rfl, -⟩ | ⟨e, he, hd⟩
      · exact absurd hk hxk
      · exact ⟨e, h.hashed he hk, hd⟩
  · intro k d hd
    rcases (hpt k d).1 hd with ⟨hk, rfl⟩ | ⟨-, e, he, hd⟩
    · exact ⟨x, hnew, hk⟩
    · obtain ⟨a, ha, hak⟩ := h.named he
      exact ⟨a, (hin a d).2 (.inr ⟨e, ha, hd⟩), hak⟩
  · intro a b d ha hb
    by_cases hd : d = c
    · subst hd
      exact .trans _ x _ (.symm _ _ (hinto ha)) (hinto hb)
    · have hkept : ∀ {a}, inClass' a d → inClass a d := by
        intro a ha
        rcases (hin a d).1 ha with ⟨-, rfl⟩ | ⟨e, he, ⟨-, rfl⟩ | ⟨-, rfl⟩⟩
        · exact absurd rfl hd
        · exact absurd rfl hd
        · exact he
      exact hchain (h.chained (hkept ha) (hkept hb))

/-- Nothing arrived yet. -/
theorem empty (hin : ∀ a c, ¬ inClass a c) (hpt : ∀ k c, ¬ points k c) :
    Partition names inClass points :=
  ⟨fun ha _ => absurd ha (hin _ _), fun hk _ => absurd hk (hpt _ _),
    fun ha _ => absurd ha (hin _ _), fun hk => absurd hk (hpt _ _),
    fun ha _ => absurd ha (hin _ _)⟩

/-- Other tables that say the same. -/
theorem congr (h : Partition names inClass points) (hin : ∀ a c, inClass' a c ↔ inClass a c)
    (hpt : ∀ k c, points' k c ↔ points k c) : Partition names inClass' points' := by
  obtain rfl : inClass' = inClass := funext fun a => funext fun c => propext (hin a c)
  obtain rfl : points' = points := funext fun k => funext fun c => propext (hpt k c)
  exact h

end Partition

end Huliho
