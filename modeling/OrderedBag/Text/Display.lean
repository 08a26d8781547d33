import OrderedBag.Entry
import OrderedBag.Interval
import OrderedBag.Text.Quoted
import OrderedBag.Text.Sketch

/-!
# The text of elements, entries and intervals

An entry is displayed as its element, followed by its count unless the count is 1. A list of entries
is displayed between square brackets, with a comma and a blank between two entries.

* `Entry.display`, `displayEntries` — for readers
* `Entry.sketch`, `Interval.sketch` — the outline that shows every part
-/

namespace OrderedBag

variable {α : Type}

/-- Elements that can be shown. -/
class Shown (α : Type) where
  /-- The element for readers. -/
  display : α → String
  /-- The outline of the element. -/
  sketch : α → Sketch

instance : Shown Int where
  display n := toString n
  sketch n := .atom (toString n)

instance : Shown String where
  display s := s
  sketch s := .atom (Quoted.encode s)

/-- The name of an edge. -/
def Edge.name : Edge → String
  | inclusive => "Inclusive"
  | exclusive => "Exclusive"

variable [Shown α]

namespace Entry

/-- The element, followed by its count unless that is 1. -/
def display (e : Entry α) : String :=
  if e.count = 1 then Shown.display e.element
  else Shown.display e.element ++ " x " ++ toString e.count

/-- The outline of an entry. -/
def sketch (e : Entry α) : Sketch :=
  .record "Entry" [("element", Shown.sketch e.element), ("count", .atom (toString e.count))]

end Entry

/-- A list of entries between square brackets. -/
def displayEntries (es : List (Entry α)) : String :=
  "[" ++ ", ".intercalate (es.map Entry.display) ++ "]"

/-- The outline of a list of entries. -/
def sketchEntries (es : List (Entry α)) : Sketch :=
  .list (es.map Entry.sketch)

/-- The outline of the distinct elements of a list of entries. -/
def sketchElements (es : List (Entry α)) : Sketch :=
  .set (es.map fun e => Shown.sketch e.element)

/-- The outline of an endpoint. -/
def Endpoint.sketch (p : Endpoint α) : Sketch :=
  .record "Endpoint" [("element", Shown.sketch p.element), ("bound_type", .atom p.edge.name)]

namespace Interval

/-- The outline of an optional endpoint. -/
def sketchEnd : Option (Endpoint α) → Sketch
  | none => .atom "None"
  | some p => .tuple "Some" [p.sketch]

/-- The outline of an interval. -/
def sketch (r : Interval α) : Sketch :=
  .record "GeneralRange" [("lower", sketchEnd r.lower), ("upper", sketchEnd r.upper)]

end Interval

end OrderedBag
