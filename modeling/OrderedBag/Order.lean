/-!
# Total preorders

An `Order` is a comparison function together with the proof that it is a total preorder: comparing
two elements the other way around gives the swapped answer, and "at most" is transitive. Distinct
elements may compare equal.

* `Order.natural` — the order of the element type
* `Order.byKey` — elements are ranked by a key alone
* `Order.thenBy` — ties of the first order are settled by the second
* `Order.backward` — the arguments are exchanged
-/

namespace OrderedBag

variable {α β : Type}

/-- A comparison function that is a total preorder. -/
structure Order (α : Type) where
  /-- How the first element stands to the second. -/
  cmp : α → α → Ordering
  /-- The comparison is oriented and transitive. -/
  lawful : Std.TransCmp cmp

namespace Order

instance (o : Order α) : Std.TransCmp o.cmp := o.lawful

/-- The order that the element type itself comes with. -/
def natural [Ord α] [Std.TransOrd α] : Order α :=
  ⟨compare, inferInstance⟩

/-- Ranks elements by their keys; elements with equal keys compare equal. -/
def byKey [Ord β] [Std.TransOrd β] (key : α → β) : Order α :=
  ⟨compareOn key, inferInstance⟩

/-- Asks `second` where `first` finds two elements equal. -/
def thenBy (first second : Order α) : Order α :=
  ⟨compareLex first.cmp second.cmp, inferInstance⟩

/-- The order with its arguments exchanged. -/
def backward (o : Order α) : Order α :=
  ⟨fun a b => o.cmp b a, Std.TransCmp.opposite⟩

/-- Every two elements compare equal. -/
def indifferent : Order α :=
  ⟨fun _ _ => .eq, { eq_swap := rfl, isLE_trans := fun _ _ => rfl }⟩

end Order

end OrderedBag
