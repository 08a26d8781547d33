import OrderedBag.Order

/-!
# Comparators

A comparator is an order that may be read backwards. Every evaluation of an ordering function gets
an `origin` of its own, so two comparators are equal when they stem from the same evaluation and
point the same way; reversing twice therefore gives back an equal comparator.

* `Comparator.compare_reversed` — reversing swaps every verdict
* `Comparator.reversed_reversed` — reversing is an involution
-/

namespace OrderedBag

variable {α : Type}

/-- An order with a direction, told apart from others by the evaluation it stems from. -/
structure Comparator (α : Type) where
  /-- The evaluation of an ordering function that made this comparator. -/
  origin : Nat
  /-- The order of that evaluation. -/
  order : Order α
  /-- Whether the verdicts of `order` are swapped. -/
  backwards : Bool

namespace Comparator

/-- How `a` stands to `b`. -/
def compare (c : Comparator α) (a b : α) : Ordering :=
  if c.backwards then (c.order.cmp a b).swap else c.order.cmp a b

/-- The comparator which orders elements the other way around. -/
def reversed (c : Comparator α) : Comparator α :=
  { c with backwards := !c.backwards }

/-- Comparators are equal when they share the evaluation and the direction. -/
instance : BEq (Comparator α) where
  beq c d := c.origin == d.origin && c.backwards == d.backwards

/-- The text of a comparator shows its direction only. -/
def debug (c : Comparator α) : String :=
  "Comparator \x7b reversed: " ++ toString c.backwards ++ ", .. \x7d"

@[simp] theorem compare_reversed (c : Comparator α) (a b : α) :
    c.reversed.compare a b = (c.compare a b).swap := by
  cases h : c.backwards <;> simp [compare, reversed, h]

@[simp] theorem reversed_reversed (c : Comparator α) : c.reversed.reversed = c := by
  simp [reversed]

theorem compare_swap (c : Comparator α) (a b : α) : (c.compare b a).swap = c.compare a b := by
  have h : c.order.cmp a b = (c.order.cmp b a).swap := Std.OrientedCmp.eq_swap
  unfold compare
  split <;> simp [h]

instance (c : Comparator α) : Std.TransCmp c.compare := by
  cases h : c.backwards
  · have he : c.compare = c.order.cmp := by
      funext a b
      simp [compare, h]
    rw [he]
    infer_instance
  · have he : c.compare = fun a b => c.order.cmp b a := by
      funext a b
      simp only [compare, h, if_true]
      exact Std.OrientedCmp.eq_swap.symm
    rw [he]
    exact Std.TransCmp.opposite

end Comparator

end OrderedBag
