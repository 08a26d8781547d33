import OrderedBag.Comparator

/-!
# Intervals

An interval has an optional endpoint on either side. It does not know the order of the elements it
bounds: every question which compares elements takes the comparator of the bag that the interval is
used with. Read backwards, an interval exchanges its endpoints, and each keeps its own edge.

* `Interval.between?` — refuses exactly the endpoints which the comparator finds crossed
* `Interval.tooLow`, `Interval.tooHigh` — the two ways in which an element may miss an interval
* `Interval.intersect` — takes the tighter endpoint on either side
-/

namespace OrderedBag

variable {α : Type}

/-- Whether the element at an endpoint belongs to the interval. -/
inductive Edge
  /-- The element at the endpoint belongs to the interval. -/
  | inclusive
  /-- The element at the endpoint stays outside. -/
  | exclusive
  deriving DecidableEq

namespace Edge

/-- Reads the inclusion flag of ordered sets. -/
def ofInclusive (included : Bool) : Edge :=
  if included then inclusive else exclusive

/-- Whether the element at the endpoint belongs to the interval. -/
def isInclusive (e : Edge) : Bool :=
  e == inclusive

end Edge

/-- One side of an interval. -/
structure Endpoint (α : Type) where
  /-- The element at the boundary. -/
  element : α
  /-- Whether that element itself is inside. -/
  edge : Edge

/-- A possibly unbounded interval of elements. -/
structure Interval (α : Type) where
  /-- The endpoint below, if any. -/
  lower : Option (Endpoint α)
  /-- The endpoint above, if any. -/
  upper : Option (Endpoint α)

/-- Endpoints are equal when their elements compare equal and their edges agree. -/
instance [Ord α] : BEq (Endpoint α) where
  beq p q := (compare p.element q.element).isEq && p.edge == q.edge

/-- Intervals are equal endpoint by endpoint. -/
instance [Ord α] : BEq (Interval α) where
  beq r s := r.lower == s.lower && r.upper == s.upper

namespace Interval

/-! ## Making intervals -/

/-- Every element. -/
def all : Interval α :=
  ⟨none, none⟩

/-- The elements before an endpoint. -/
def upTo (p : Endpoint α) : Interval α :=
  ⟨none, some p⟩

/-- The elements after an endpoint. -/
def downTo (p : Endpoint α) : Interval α :=
  ⟨some p, none⟩

/-- The elements between two endpoints, unless the first is ordered after the second. Equal
endpoints are accepted, and leave nothing between them if one of them is exclusive. -/
def between? (c : Comparator α) (lo hi : Endpoint α) : Option (Interval α) :=
  if c.compare lo.element hi.element = .gt then none else some ⟨some lo, some hi⟩

/-- The same elements, for the reversed comparator. -/
def reverse (r : Interval α) : Interval α :=
  ⟨r.upper, r.lower⟩

/-! ## Membership -/

/-- Whether `x` is ordered before the lower endpoint. -/
def tooLow (c : Comparator α) (r : Interval α) (x : α) : Bool :=
  match r.lower with
  | none => false
  | some p =>
    match c.compare x p.element with
    | .lt => true
    | .eq => p.edge == .exclusive
    | .gt => false

/-- Whether `x` is ordered after the upper endpoint. -/
def tooHigh (c : Comparator α) (r : Interval α) (x : α) : Bool :=
  match r.upper with
  | none => false
  | some p =>
    match c.compare x p.element with
    | .lt => false
    | .eq => p.edge == .exclusive
    | .gt => true

/-- Whether `x` lies within the interval. -/
def contains (c : Comparator α) (r : Interval α) (x : α) : Bool :=
  !r.tooLow c x && !r.tooHigh c x

/-- Whether the endpoints leave no room between them: they are crossed, or they are equal and one
of them is exclusive. -/
def isEmpty (c : Comparator α) (r : Interval α) : Bool :=
  match r.lower, r.upper with
  | some p, some q =>
    match c.compare p.element q.element with
    | .lt => false
    | .eq => p.edge == .exclusive || q.edge == .exclusive
    | .gt => true
  | _, _ => false

/-! ## Intersection -/

/-- The more restrictive of two optional endpoints, where `rank` ranks the more restrictive one as
the greater. At the same boundary an exclusive endpoint leaves out more. -/
def tighter (rank : α → α → Ordering) :
    Option (Endpoint α) → Option (Endpoint α) → Option (Endpoint α)
  | none, q => q
  | some p, none => some p
  | some p, some q =>
    match rank p.element q.element with
    | .gt => some p
    | .lt => some q
    | .eq => if p.edge = .exclusive then some p else some q

/-- The elements that lie within both intervals. -/
def intersect (c : Comparator α) (r s : Interval α) : Interval α :=
  ⟨tighter c.compare r.lower s.lower, tighter (fun a b => c.compare b a) r.upper s.upper⟩

/-! ## Reading an interval backwards -/

@[simp] theorem reverse_reverse (r : Interval α) : r.reverse.reverse = r := rfl

@[simp] theorem contains_all (c : Comparator α) (x : α) : all.contains c x = true := rfl

/-- What is too low for the reversed interval is too high for the interval itself. -/
@[simp] theorem tooLow_reverse (c : Comparator α) (r : Interval α) (x : α) :
    r.reverse.tooLow c.reversed x = r.tooHigh c x := by
  unfold tooLow tooHigh reverse
  cases r.upper with
  | none => rfl
  | some p =>
    simp only [Comparator.compare_reversed]
    cases c.compare x p.element <;> rfl

@[simp] theorem tooHigh_reverse (c : Comparator α) (r : Interval α) (x : α) :
    r.reverse.tooHigh c.reversed x = r.tooLow c x := by
  unfold tooLow tooHigh reverse
  cases r.lower with
  | none => rfl
  | some p =>
    simp only [Comparator.compare_reversed]
    cases c.compare x p.element <;> rfl

@[simp] theorem contains_reverse (c : Comparator α) (r : Interval α) (x : α) :
    r.reverse.contains c.reversed x = r.contains c x := by
  simp [contains, Bool.and_comm]

end Interval

end OrderedBag
