import OrderedBag.View.Lookup
import OrderedBag.View.Remove

/-!
# Element sets

The distinct elements of a view, as an ordered set. The set of a view is built once, belongs to the
view and refers to it weakly; a set that is derived from another set keeps its own view alive. Every
question is put to the view, mostly for the first or last entry of a narrower view.

* `ElementSet.lower`, `floor`, `ceiling`, `higher` — the nearest elements on either side
* `ElementSet.sub`, `head`, `tail`, `descending` — sets derived from a set
-/

namespace OrderedBag

variable {α : Type}

/-- The distinct elements of a view. -/
structure ElementSet (α : Type) where
  /-- Whether the set keeps its view alive. -/
  link : Link
  /-- The view whose elements are in the set. -/
  view : View α

/-- The element set that belongs to a view, built on first request. -/
def View.elementSet (v : View α) : Action α (ElementSet α) := do
  let v ← Action.updating fun reg => reg.enroll v
  let reg ← get
  unless (reg.nodeOf? v).any Node.hasElementSet do
    Action.record .elementSet
    modify fun reg => reg.updateNode v fun n => { n with hasElementSet := true }
  return ⟨.weak, v⟩

namespace ElementSet

/-- A set of its own, which keeps a view alive. -/
def keeping (v : View α) : Action α (ElementSet α) := do
  Action.record .elementSet
  return ⟨.strong, v⟩

/-- The view whose elements are in the set. -/
def bag (s : ElementSet α) : Action α (View α) := do
  Action.follow s.link s.view
  return s.view

/-- The order of the elements. -/
def comparator (s : ElementSet α) : Action α (Comparator α) := do
  (← s.bag).comparator

/-! ## Reading -/

/-- The entry met first in a direction. -/
def extreme? (s : ElementSet α) (d : Direction) : Action α (Option (Entry α)) := do
  let v ← s.bag
  Action.reading fun reg => v.extreme? reg d

/-- The element met first in a direction, of which there must be one. -/
def extreme (s : ElementSet α) (d : Direction) : Action α α := do
  match ← s.extreme? d with
  | some e => return e.element
  | none => throw .noSuchElement

/-- Whether `x` is in the set. -/
def contains (s : ElementSet α) (x : α) : Action α Bool := do
  (← s.bag).contains x

/-- The number of elements. -/
def size (s : ElementSet α) : Action α Nat := do
  let v ← s.bag
  Action.reading fun reg => v.distinctSize reg

/-- Whether there is no element. -/
def isEmpty (s : ElementSet α) : Action α Bool := do
  let v ← s.bag
  Action.reading fun reg => v.isEmpty reg

/-- Opens a traversal of the entries whose elements are in the set. -/
def scan (s : ElementSet α) : Action α (Traversal α) := do
  let v ← s.bag
  Action.reading fun reg => v.scan reg .ascending

/-! ## Derived sets -/

/-- The elements between two endpoints. -/
def sub (s : ElementSet α) (lo hi : Endpoint α) : Action α (ElementSet α) := do
  keeping (← (← s.bag).sub lo hi)

/-- The elements before an endpoint. -/
def head (s : ElementSet α) (hi : Endpoint α) : Action α (ElementSet α) := do
  keeping (← (← s.bag).head hi)

/-- The elements after an endpoint. -/
def tail (s : ElementSet α) (lo : Endpoint α) : Action α (ElementSet α) := do
  keeping (← (← s.bag).tail lo)

/-- The same elements, backwards, by a descending view of its own. -/
def descending (s : ElementSet α) : Action α (ElementSet α) := do
  let v ← s.bag
  Action.record .descendingView
  keeping (.descending none .strong v)

/-! ## Navigation -/

/-- The last element before an endpoint. -/
def lastBefore (s : ElementSet α) (hi : Endpoint α) : Action α (Option α) := do
  let v ← (← s.bag).head hi
  return (← Action.reading fun reg => v.extreme? reg .descending).map Entry.element

/-- The first element after an endpoint. -/
def firstAfter (s : ElementSet α) (lo : Endpoint α) : Action α (Option α) := do
  let v ← (← s.bag).tail lo
  return (← Action.reading fun reg => v.extreme? reg .ascending).map Entry.element

/-- The greatest element that is strictly less than `x`. -/
def lower (s : ElementSet α) (x : α) : Action α (Option α) :=
  s.lastBefore ⟨x, .exclusive⟩

/-- The greatest element that is at most `x`. -/
def floor (s : ElementSet α) (x : α) : Action α (Option α) :=
  s.lastBefore ⟨x, .inclusive⟩

/-- The least element that is at least `x`. -/
def ceiling (s : ElementSet α) (x : α) : Action α (Option α) :=
  s.firstAfter ⟨x, .inclusive⟩

/-- The least element that is strictly greater than `x`. -/
def higher (s : ElementSet α) (x : α) : Action α (Option α) :=
  s.firstAfter ⟨x, .exclusive⟩

/-! ## Removal -/

/-- Removes the element met first in a direction, with all of its occurrences. -/
def poll (s : ElementSet α) (d : Direction) : Action α (Option α) := do
  return (← (← s.bag).poll d).map Entry.element

/-- Removes `x` with all of its occurrences, and tells whether it was there. -/
def remove (s : ElementSet α) (x : α) : Action α Bool := do
  return (← (← s.bag).take x).isSome

end ElementSet

end OrderedBag
