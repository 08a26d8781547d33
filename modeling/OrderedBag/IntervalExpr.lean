import OrderedBag.Interval

/-!
# Interval expressions

Intervals put together from others, all read under one comparator. The parts are evaluated from left
to right, and the first refusal ends the evaluation.
-/

namespace OrderedBag

variable {α : Type}

/-- A description of an interval. -/
inductive IntervalExpr (α : Type)
  /-- Every element. -/
  | all
  /-- The elements before an endpoint. -/
  | upTo (p : Endpoint α)
  /-- The elements after an endpoint. -/
  | downTo (p : Endpoint α)
  /-- The elements between two endpoints, which must not be crossed. -/
  | between (lo hi : Endpoint α)
  /-- The elements of both intervals. -/
  | intersect (x y : IntervalExpr α)
  /-- The interval with its endpoints exchanged. -/
  | reverse (x : IntervalExpr α)
  /-- The interval as read under the reversed comparator. -/
  | flip (x : IntervalExpr α)

namespace IntervalExpr

/-- The interval that is described, unless two endpoints are crossed. -/
def eval (c : Comparator α) : IntervalExpr α → Option (Interval α)
  | all => some .all
  | upTo p => some (.upTo p)
  | downTo p => some (.downTo p)
  | between lo hi => Interval.between? c lo hi
  | intersect x y => do
    let r ← x.eval c
    let s ← y.eval c
    return r.intersect c s
  | reverse x => (x.eval c).map Interval.reverse
  | flip x => x.eval c.reversed

end IntervalExpr

end OrderedBag
