import OrderedBag.Registry.Basic
import OrderedBag.Traversal.Walk

/-!
# Reading views

What a view shows at the moment it is asked. An indexed source answers from its sorted entries; all
other sources derive every answer from their ascending traversal. A range asks its source for a
stretch, and a descending view asks the view behind it the other way around. Reading changes
nothing, and fails only where a descending view refers to a view that is gone.

* `View.scan`, `View.scanWithin` — open a traversal in either direction
* `View.extreme?` — the first entry in either direction
-/

namespace OrderedBag

variable {α : Type}

namespace Source

/-- The ascending traversal of all entries. -/
def feed (contents : BagId → Histogram α) (s : Source α) : Feed α :=
  match s.access with
  | .indexed | .sequential => .live s.bag (Cursor.begin s.comparator .all .ascending)
  | .copying | .detached => .copied (contents s.bag).entries

/-- The traversal of the entries in an interval. An indexed source sets a cursor on either end; the
others filter their ascending traversal as they go, or, to go down, collect it at once. -/
def scanWithin (contents : BagId → Histogram α) (s : Source α) (d : Direction) (r : Interval α) :
    Traversal α :=
  match s.access, d with
  | .indexed, d => .direct (.live s.bag (Cursor.begin s.comparator r d))
  | _, .ascending => .gated (Gate.initial s.comparator r) (s.feed contents)
  | _, .descending =>
    let ascending := Traversal.gated (Gate.initial s.comparator r) (s.feed contents)
    .direct (.copied (ascending.remaining contents).reverse)

/-- The traversal of all entries. -/
def scan (contents : BagId → Histogram α) (s : Source α) (d : Direction) : Traversal α :=
  match d with
  | .ascending => .direct (s.feed contents)
  | .descending => s.scanWithin contents .descending .all

/-- The entry met first in a direction. -/
def extreme? (contents : BagId → Histogram α) (s : Source α) (d : Direction) : Option (Entry α) :=
  match s.access with
  | .indexed => d.extreme? (contents s.bag).entries
  | _ => ((s.scan contents d).next contents).1

/-- The number of occurrences. An indexed source has kept count of them, the others add them up. -/
def size (reg : Registry α) (s : Source α) : Except Failure Nat :=
  match s.access with
  | .indexed => .ok (reg.contents s.bag).total
  | _ => reg.arithmetic.sum ((s.scan reg.contents .ascending).remaining reg.contents)

/-- The number of distinct elements. -/
def distinctSize (contents : BagId → Histogram α) (s : Source α) : Nat :=
  match s.access with
  | .indexed => (contents s.bag).entries.length
  | _ => ((s.scan contents .ascending).remaining contents).length

/-- Whether there is no entry. An indexed source looks at its running total. -/
def isEmpty (contents : BagId → Histogram α) (s : Source α) : Bool :=
  match s.access with
  | .indexed => (contents s.bag).total == 0
  | _ => (s.extreme? contents .ascending).isNone

end Source

namespace View

/-- Opens a traversal of all entries. -/
def scan (reg : Registry α) : View α → Direction → Except Failure (Traversal α)
  | source s, d => .ok (s.scan reg.contents d)
  | range _ s r, d => .ok (s.scanWithin reg.contents d r)
  | descending _ link f, d => do
    reg.follow link f
    f.scan reg d.flip

/-- Opens a traversal of the entries in an interval, which is given in the order of the view. -/
def scanWithin (reg : Registry α) :
    View α → Direction → Interval α → Except Failure (Traversal α)
  | source s, d, q => .ok (s.scanWithin reg.contents d q)
  | range _ s r, d, q => .ok (s.scanWithin reg.contents d (r.intersect s.comparator q))
  | descending _ link f, d, q => do
    reg.follow link f
    f.scanWithin reg d.flip q.reverse

/-- The entry met first in a direction. -/
def extreme? (reg : Registry α) : View α → Direction → Except Failure (Option (Entry α))
  | source s, d => .ok (s.extreme? reg.contents d)
  | range _ s r, d => .ok ((s.scanWithin reg.contents d r).next reg.contents).1
  | descending _ link f, d => do
    reg.follow link f
    f.extreme? reg d.flip

/-- The entries that are shown now. -/
def entries (reg : Registry α) (v : View α) : Except Failure (List (Entry α)) := do
  let t ← v.scan reg .ascending
  return t.remaining reg.contents

/-- The number of occurrences. -/
def size (reg : Registry α) : View α → Except Failure Nat
  | source s => s.size reg
  | range _ s r =>
    reg.arithmetic.sum ((s.scanWithin reg.contents .ascending r).remaining reg.contents)
  | descending _ link f => do
    reg.follow link f
    f.size reg

/-- The number of distinct elements. -/
def distinctSize (reg : Registry α) : View α → Except Failure Nat
  | source s => .ok (s.distinctSize reg.contents)
  | range _ s r => .ok ((s.scanWithin reg.contents .ascending r).remaining reg.contents).length
  | descending _ link f => do
    reg.follow link f
    f.distinctSize reg

/-- Whether no entry is shown. -/
def isEmpty (reg : Registry α) : View α → Except Failure Bool
  | source s => .ok (s.isEmpty reg.contents)
  | range _ s r =>
    .ok ((s.scanWithin reg.contents .ascending r).next reg.contents).1.isNone
  | descending _ link f => do
    reg.follow link f
    f.isEmpty reg

/-- Opens a visit of the elements, each as often as it occurs. -/
def occurrences (reg : Registry α) (v : View α) : Except Failure (Occurrences α) := do
  let t ← v.scan reg .ascending
  return .begin t

end View

end OrderedBag
