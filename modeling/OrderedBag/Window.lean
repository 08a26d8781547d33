import OrderedBag.Interval

/-!
# Windows

A window is the pair of bounds with which a stretch of a sorted list is looked up. Unlike an
interval it is read by a plain comparison function, each bound on its own.

* `Interval.window` — the bounds of an interval
* `Window.contains` — an element is in a window if neither bound refuses it
-/

namespace OrderedBag

variable {α : Type}

/-- A bound of a look-up. -/
inductive Bound (α : Type)
  /-- The look-up reaches `x` and includes it. -/
  | included (x : α)
  /-- The look-up stops short of `x`. -/
  | excluded (x : α)
  /-- The look-up is not bounded. -/
  | unbounded

/-- The bounds of a look-up. -/
structure Window (α : Type) where
  /-- Where the window begins. -/
  start : Bound α
  /-- Where the window ends. -/
  finish : Bound α

namespace Bound

/-- Whether `x` is on the inner side of a bound that begins a window. -/
def admitsAfter (cmp : α → α → Ordering) : Bound α → α → Bool
  | included a, x => (cmp a x).isLE
  | excluded a, x => (cmp a x).isLT
  | unbounded, _ => true

/-- Whether `x` is on the inner side of a bound that ends a window. -/
def admitsBefore (cmp : α → α → Ordering) : Bound α → α → Bool
  | included a, x => (cmp x a).isLE
  | excluded a, x => (cmp x a).isLT
  | unbounded, _ => true

end Bound

/-- Whether neither bound refuses `x`. -/
def Window.contains (cmp : α → α → Ordering) (w : Window α) (x : α) : Bool :=
  w.start.admitsAfter cmp x && w.finish.admitsBefore cmp x

/-- The bound at an endpoint. -/
def Endpoint.bound (p : Endpoint α) : Bound α :=
  match p.edge with
  | .inclusive => .included p.element
  | .exclusive => .excluded p.element

namespace Interval

/-- The bound on the lower side. -/
def startBound (r : Interval α) : Bound α :=
  (r.lower.map Endpoint.bound).getD .unbounded

/-- The bound on the upper side. -/
def endBound (r : Interval α) : Bound α :=
  (r.upper.map Endpoint.bound).getD .unbounded

/-- Both bounds of an interval. -/
def window (r : Interval α) : Window α :=
  ⟨r.startBound, r.endBound⟩

end Interval

end OrderedBag
