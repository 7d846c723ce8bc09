import Mathlib.Data.List.Basic

/-!
# JSON values

A value as a parser hands it over. An object is the list of its members as they stand; a key that
stands twice counts by its last value (`lookup`), so to set one is to drop it and append it (`insert`).
A number is kept as it is written.
-/

namespace Huliho

/-- A JSON value. -/
inductive Json
  | null
  | bool (value : Bool)
  | num (literal : String)
  | str (text : String)
  | arr (items : List Json)
  | obj (fields : List (String × Json))

namespace Json

/-- The value of a key: its last one. -/
def lookup (fields : List (String × Json)) (key : String) : Option Json :=
  (fields.filter fun field => field.1 = key).getLast?.map Prod.snd

/-- The members with one value set. -/
def insert (fields : List (String × Json)) (key : String) (value : Json) : List (String × Json) :=
  fields.filter (fun field => field.1 ≠ key) ++ [(key, value)]

mutual

/-- The levels of arrays and objects. -/
def depth : Json → Nat
  | .arr items => depthItems items + 1
  | .obj fields => depthFields fields + 1
  | _ => 0

def depthItems : List Json → Nat
  | [] => 0
  | item :: items => max (depth item) (depthItems items)

def depthFields : List (String × Json) → Nat
  | [] => 0
  | (_, value) :: fields => max (depth value) (depthFields fields)

end

def asArray : Json → Option (List Json)
  | .arr items => some items
  | _ => none

def asObject : Json → Option (List (String × Json))
  | .obj fields => some fields
  | _ => none

def asStr : Json → Option String
  | .str text => some text
  | _ => none

/-- A member of a value that is an object. -/
def get (value : Json) (key : String) : Option Json := value.asObject.bind (lookup · key)

variable {fields : List (String × Json)} {key other : String} {value : Json}

@[simp] theorem lookup_nil : lookup [] key = none := rfl

@[simp] theorem get_obj : (obj fields).get key = lookup fields key := rfl

@[simp] theorem lookup_insert_self : lookup (insert fields key value) key = some value := by
  simp [lookup, insert, List.filter_append]

theorem lookup_insert_ne (h : other ≠ key) :
    lookup (insert fields key value) other = lookup fields other := by
  have hfilter : (insert fields key value).filter (fun field => field.1 = other) =
      fields.filter fun field => field.1 = other := by
    rw [insert, List.filter_append, List.filter_filter]
    have hlast : [(key, value)].filter (fun field => field.1 = other) = [] := by simp [Ne.symm h]
    rw [hlast, List.append_nil]
    refine List.filter_congr fun field _ => ?_
    by_cases hfield : field.1 = other <;> simp [hfield, h]
  rw [lookup, hfilter, lookup]

/-- Among some members and others behind them, the ones behind count. -/
theorem lookup_append (fields others : List (String × Json)) (key : String) :
    lookup (fields ++ others) key = (lookup others key).or (lookup fields key) := by
  rw [lookup, List.filter_append, List.getLast?_append, Option.map_or, lookup, lookup]

/-- To set a value counts as the value behind the members. -/
theorem lookup_insert_append (fields others : List (String × Json)) (key other : String)
    (value : Json) : lookup (insert fields key value ++ others) other =
      lookup (fields ++ (key, value) :: others) other := by
  have hset : lookup (insert fields key value) other = lookup (fields ++ [(key, value)]) other := by
    by_cases hkey : other = key
    · subst hkey
      rw [lookup_insert_self, lookup_append]
      simp [lookup]
    · rw [lookup_insert_ne hkey, lookup_append]
      simp [lookup, Ne.symm hkey]
  rw [lookup_append, hset, ← lookup_append, List.append_assoc, List.singleton_append]

theorem asArray_eq_some {items : List Json} : value.asArray = some items ↔ value = .arr items := by
  cases value <;> simp [asArray]

theorem asObject_eq_some : value.asObject = some fields ↔ value = .obj fields := by
  cases value <;> simp [asObject]

theorem asStr_eq_some {text : String} : value.asStr = some text ↔ value = .str text := by
  cases value <;> simp [asStr]

/-- A member stands in an object. -/
theorem get_eq_some {member : Json} : value.get key = some member ↔
    ∃ fields, value = .obj fields ∧ lookup fields key = some member := by
  rw [get, Option.bind_eq_some_iff]
  exact exists_congr fun fields => and_congr_left fun _ => asObject_eq_some

end Json

end Huliho
