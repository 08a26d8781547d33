import OrderedBag.View.Lookup

/-!
# Entry sets

The entries of a view, as a set. It is built once, belongs to the view and refers to it weakly.

* `EntrySet.contains` — an entry is in the set if its element occurs exactly as often as it says
-/

namespace OrderedBag

variable {α : Type}

/-- The entries of a view. -/
structure EntrySet (α : Type) where
  /-- The view whose entries are in the set. -/
  view : View α

/-- The entry set that belongs to a view, built on first request. -/
def View.entrySet (v : View α) : Action α (EntrySet α) := do
  let v ← Action.updating fun reg => reg.enroll v
  let reg ← get
  unless (reg.nodeOf? v).any Node.hasEntrySet do
    Action.record .entrySet
    modify fun reg => reg.updateNode v fun n => { n with hasEntrySet := true }
  return ⟨v⟩

namespace EntrySet

/-- The view whose entries are in the set. -/
def bag (s : EntrySet α) : Action α (View α) := do
  Action.follow .weak s.view
  return s.view

/-- Opens a traversal of the entries. -/
def scan (s : EntrySet α) : Action α (Traversal α) := do
  let v ← s.bag
  Action.reading fun reg => v.scan reg .ascending

/-- The number of entries. -/
def size (s : EntrySet α) : Action α Nat := do
  let v ← s.bag
  Action.reading fun reg => v.distinctSize reg

/-- Whether there is no entry. -/
def isEmpty (s : EntrySet α) : Action α Bool := do
  let v ← s.bag
  Action.reading fun reg => v.isEmpty reg

/-- Whether the element of `e` occurs exactly as often as `e` says. -/
def contains (s : EntrySet α) (e : Entry α) : Action α Bool := do
  return (← (← s.bag).count e.element) == e.count

end EntrySet

end OrderedBag
