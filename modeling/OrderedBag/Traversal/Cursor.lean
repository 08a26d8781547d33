import OrderedBag.Histogram
import OrderedBag.Window

/-!
# Cursors

A cursor remembers the last element that it yielded, and looks up the next one each time it is
asked. The bag may change between two calls: what counts is what is stored at the moment of the
call. Once a cursor has found nothing it is exhausted for good.

* `Cursor.window` — where the next look-up searches
* `Cursor.remaining` — what a cursor would yield from now on if nothing changed
* `Cursor.advance` — skips ahead to the first remaining entry that fulfils a condition
-/

namespace OrderedBag

variable {α : Type}

/-- A position in the entries of a bag that lie within an interval. -/
structure Cursor (α : Type) where
  /-- The order of the bag. -/
  comparator : Comparator α
  /-- The interval that is visited. -/
  interval : Interval α
  /-- The way in which it is visited. -/
  direction : Direction
  /-- The element that was yielded last. -/
  last : Option α
  /-- Whether nothing is yielded any more. -/
  exhausted : Bool

namespace Cursor

/-- A cursor at the near end of an interval. An interval without room is exhausted at once. -/
def begin (c : Comparator α) (r : Interval α) (d : Direction) : Cursor α :=
  ⟨c, r, d, none, r.isEmpty c⟩

/-- The bounds of the next look-up: those of the interval, and strictly beyond the element that was
yielded last. -/
def window (k : Cursor α) : Window α :=
  match k.last, k.direction with
  | none, _ => k.interval.window
  | some x, .ascending => ⟨.excluded x, k.interval.endBound⟩
  | some x, .descending => ⟨k.interval.startBound, .excluded x⟩

/-- The stored entries that the cursor has yet to yield, in its direction. -/
def remaining (h : Histogram α) (k : Cursor α) : List (Entry α) :=
  if k.exhausted then []
  else k.direction.orient
    (h.entries.filter fun e => k.window.contains k.comparator.compare e.element)

/-- Yields the first remaining entry that fulfils `p`, and passes over the ones before it. -/
def advance (p : Entry α → Bool) (h : Histogram α) (k : Cursor α) : Option (Entry α) × Cursor α :=
  match (k.remaining h).find? p with
  | some e => (some e, { k with last := some e.element })
  | none => (none, { k with exhausted := true })

/-- Yields the next entry. -/
def next (h : Histogram α) (k : Cursor α) : Option (Entry α) × Cursor α :=
  k.advance (fun _ => true) h

theorem next_of_exhausted {k : Cursor α} (hk : k.exhausted = true) (h : Histogram α) :
    k.next h = (none, k) := by
  cases k
  simp_all [next, advance, remaining]

end Cursor

end OrderedBag
