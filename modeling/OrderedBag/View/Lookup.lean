import OrderedBag.View.Narrow

/-!
# Counting an element

An indexed source looks the element up. Every other source takes the entries from the element on,
and answers the count of the first one if it compares equal. Outside its interval a range counts
nothing.

* `View.count` — how often an element occurs
* `View.contains` — whether it occurs at all
-/

namespace OrderedBag

variable {α : Type}

namespace Source

/-- How often `x` occurs. -/
def count (s : Source α) (x : α) : Action α Nat := do
  match s.access with
  | .indexed => return ((← get).contents s.bag).multiplicity s.comparator x
  | _ =>
    let tail ← s.narrow (.downTo ⟨x, .inclusive⟩)
    match ← Action.reading fun reg => tail.extreme? reg .ascending with
    | some e => return if (s.comparator.compare e.element x).isEq then e.count else 0
    | none => return 0

/-- Whether `x` occurs. -/
def contains (s : Source α) (x : α) : Action α Bool := do
  match s.access with
  | .indexed => return (((← get).contents s.bag).find? s.comparator x).isSome
  | _ => return 0 < (← s.count x)

end Source

namespace View

/-- How often `x` occurs. -/
def count : View α → α → Action α Nat
  | source s, x => s.count x
  | range _ s r, x => if r.contains s.comparator x then s.count x else return 0
  | descending _ link f, x => do
    Action.follow link f
    f.count x

/-- Whether `x` occurs. -/
def contains : View α → α → Action α Bool
  | source s, x => s.contains x
  | v, x => return 0 < (← v.count x)

end View

end OrderedBag
