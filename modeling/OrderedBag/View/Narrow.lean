import OrderedBag.Registry.Action
import OrderedBag.View.Scan

/-!
# Narrowing, reversing and comparing

Building views from views. Narrowing a descending view narrows the view behind it by the reversed
interval, so that the two ends change roles and every endpoint keeps its own edge. A view builds its
descending view once, and reversing that gives back the view itself.

* `View.narrow` — the entries of a view within an interval
* `View.head`, `View.tail`, `View.sub` — the entries before an endpoint, after one, between two
* `View.reversed` — the same entries, backwards
* `View.comparator` — the order of a view, remembered by descending views
-/

namespace OrderedBag

variable {α : Type}

/-- Accepts two endpoints unless they are crossed, which the log tells. -/
def Action.between (c : Comparator α) (lo hi : Endpoint α) : Action α (Interval α) :=
  match Interval.between? c lo hi with
  | some r => return r
  | none => do
    Action.record .rejectedRange
    throw .invalidRange

namespace Source

/-- The source as its own views reach it. -/
def reachItself (s : Source α) : Action α (View α) :=
  if s.access = .detached then throw .detached else return .source s

/-- The entries within an interval. -/
def narrow (s : Source α) (q : Interval α) : Action α (View α) := do
  let _ ← s.reachItself
  Action.record .rangeView
  return .range none s q

end Source

namespace View

/-- The view as its own views reach it. -/
def reachItself : View α → Action α (View α)
  | source s => s.reachItself
  | v => return v

/-- The entries of the view within an interval, which is given in the order of the view. -/
def narrow : View α → Interval α → Action α (View α)
  | source s, q => s.narrow q
  | range _ s r, q => do
    Action.record .rangeView
    return range none s (r.intersect s.comparator q)
  | descending _ link f, q => do
    Action.follow link f
    let g ← f.narrow q.reverse
    Action.record .descendingView
    return descending none .strong g

/-- The entries before an endpoint. -/
def head (v : View α) (hi : Endpoint α) : Action α (View α) :=
  v.narrow (.upTo hi)

/-- The entries after an endpoint. -/
def tail (v : View α) (lo : Endpoint α) : Action α (View α) :=
  v.narrow (.downTo lo)

/-- The entries between two endpoints, which must not be crossed in the order of the view. -/
def sub : View α → Endpoint α → Endpoint α → Action α (View α)
  | source s, lo, hi => do
    let q ← Action.between s.comparator lo hi
    s.narrow q
  | range n s r, lo, hi => do
    let q ← Action.between s.comparator lo hi
    (range n s r).narrow q
  | descending _ link f, lo, hi => do
    Action.follow link f
    let g ← f.sub hi lo
    Action.record .descendingView
    return descending none .strong g

/-- Builds the descending view of a view. -/
def buildReversal (v : View α) : Action α (View α) := do
  Action.record .descendingView
  let d ← Action.updating fun reg => reg.enroll (descending none .weak v)
  modify fun reg => reg.updateNode v fun n => { n with reversal := some d }
  return d

/-- The same entries, backwards. -/
def reversed : View α → Action α (View α)
  | descending _ link f => do
    Action.follow link f
    return f
  | v => do
    let v ← Action.updating fun reg => reg.enroll v
    let reg ← get
    match (reg.nodeOf? v).bind Node.reversal with
    | some d => return d
    | none => v.buildReversal

/-- The order of the view. A descending view computes it once, on first request, and remembers it
even after the view behind it is gone. -/
def comparator : View α → Action α (Comparator α)
  | source s => return s.comparator
  | range _ s _ => return s.comparator
  | descending n link f => do
    let reg ← get
    match (reg.nodeOf? (descending n link f)).bind Node.comparator with
    | some c => return c
    | none =>
      Action.follow link f
      let c ← f.comparator
      let c := c.reversed
      modify fun reg => reg.updateNode (descending n link f) fun m => { m with comparator := some c }
      return c

end View

end OrderedBag
