/-!
# Keyed lists

Lists of entries that answer to keys, in the order in which their keys were first put. Keys are compared by
`==`, which need not be equality: a key that is put again keeps its first spelling and its place, and takes
the new value.

Main statements: what is found after a put (`lookup_put`) and after an erasure (`lookup_erase`).
-/

namespace Authoring.Keyed

variable {α : Type u} {β : Type v} [BEq α]

/-- Gives a key a value, at the place of the key if it is there, else at the end. -/
def put (k : α) (v : β) : List (α × β) → List (α × β)
  | [] => [(k, v)]
  | e :: es => if k == e.1 then (e.1, v) :: es else e :: put k v es

/-- Takes a key away. -/
def erase (k : α) (es : List (α × β)) : List (α × β) := es.filter fun e => !(k == e.1)

/-- The keys, in their order. -/
def keys (es : List (α × β)) : List α := es.map (·.1)

/-- What is found after a first entry: its value if it has the key, else what the others find. -/
theorem lookup_first (k : α) (e : α × β) (es : List (α × β)) :
    (e :: es).lookup k = if k == e.1 then some e.2 else es.lookup k := by
  obtain ⟨a, b⟩ := e
  rw [List.lookup_cons]
  cases k == a <;> rfl

theorem lookup_put_self [ReflBEq α] (k : α) (v : β) (es : List (α × β)) :
    (put k v es).lookup k = some v := by
  induction es with
  | nil => simp [put]
  | cons e es ih =>
    cases h : k == e.1 with
    | true => simp [put, lookup_first, h]
    | false => simp [put, lookup_first, h, ih]

/-- A key that finds nothing is put at the end. -/
theorem put_of_lookup_none {k : α} {es : List (α × β)} (h : es.lookup k = none) (v : β) :
    put k v es = es ++ [(k, v)] := by
  induction es with
  | nil => rfl
  | cons e es ih =>
    rw [lookup_first] at h
    split at h
    · cases h
    next hk => rw [put, if_neg hk, ih h, List.cons_append]

/-- Putting a key leaves what all other keys find. -/
theorem lookup_put_of_ne [EquivBEq α] {k j : α} (h : (j == k) = false) (v : β) (es : List (α × β)) :
    (put k v es).lookup j = es.lookup j := by
  induction es with
  | nil => simp [put, lookup_first, h]
  | cons e es ih =>
    cases hk : k == e.1 with
    | true =>
      have hj : (j == e.1) = false := BEq.neq_of_neq_of_beq h hk
      simp [put, lookup_first, hk, hj]
    | false =>
      cases hje : j == e.1 with
      | true => simp [put, lookup_first, hk, hje]
      | false => simp [put, lookup_first, hk, hje, ih]

theorem lookup_erase_self (k : α) (es : List (α × β)) : (erase k es).lookup k = none := by
  induction es with
  | nil => rfl
  | cons e es ih =>
    cases h : k == e.1 with
    | true => simpa [erase, h] using ih
    | false => simpa [erase, lookup_first, h] using ih

/-- Erasing a key leaves what all other keys find. -/
theorem lookup_erase_of_ne [EquivBEq α] {k j : α} (h : (j == k) = false) (es : List (α × β)) :
    (erase k es).lookup j = es.lookup j := by
  induction es with
  | nil => rfl
  | cons e es ih =>
    simp only [erase] at ih
    cases hk : k == e.1 with
    | true =>
      have hj : (j == e.1) = false := BEq.neq_of_neq_of_beq h hk
      simp [erase, lookup_first, hk, hj, ih]
    | false =>
      cases hje : j == e.1 with
      | true => simp [erase, lookup_first, hk, hje]
      | false => simp [erase, lookup_first, hk, hje, ih]

end Authoring.Keyed
