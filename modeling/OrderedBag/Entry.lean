/-!
# Entries

A distinct element together with the number of its occurrences, which is from 1 to `maxCount`.
-/

namespace OrderedBag

variable {α : Type}

/-- The largest number of occurrences that an entry can hold: sixty-four bits, all set. -/
def maxCount : Nat := 0xFFFFFFFFFFFFFFFF

/-- A distinct element of a bag, with its number of occurrences. -/
structure Entry (α : Type) where
  /-- The distinct element. -/
  element : α
  /-- How often it occurs. -/
  count : Nat
  deriving DecidableEq

namespace Entry

/-- Whether the count is one that a bag can hold. -/
def Valid (e : Entry α) : Prop :=
  1 ≤ e.count ∧ e.count ≤ maxCount

/-- Entries are equal when their elements compare equal and their counts agree. -/
instance [Ord α] : BEq (Entry α) where
  beq d e := (compare d.element e.element).isEq && d.count == e.count

/-- The element, as often as it occurs. -/
def occurrences (e : Entry α) : List α :=
  List.replicate e.count e.element

end Entry

/-- The number of occurrences in a list of entries. -/
def totalCount : List (Entry α) → Nat
  | [] => 0
  | e :: es => e.count + totalCount es

@[simp] theorem totalCount_nil : totalCount ([] : List (Entry α)) = 0 := rfl

@[simp] theorem totalCount_cons (e : Entry α) (es : List (Entry α)) :
    totalCount (e :: es) = e.count + totalCount es := rfl

@[simp] theorem totalCount_append (es fs : List (Entry α)) :
    totalCount (es ++ fs) = totalCount es + totalCount fs := by
  induction es with
  | nil => simp
  | cons e es ih => simp [ih, Nat.add_assoc]

@[simp] theorem totalCount_reverse (es : List (Entry α)) :
    totalCount es.reverse = totalCount es := by
  induction es with
  | nil => rfl
  | cons e es ih => simp [ih, Nat.add_comm]

end OrderedBag
