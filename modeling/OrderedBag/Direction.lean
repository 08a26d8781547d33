/-!
# Directions

Entries are visited upwards or downwards, and going down a list is going up its reverse.
-/

namespace OrderedBag

variable {α : Type}

/-- The way in which entries are visited. -/
inductive Direction
  /-- From the first entry to the last. -/
  | ascending
  /-- From the last entry to the first. -/
  | descending
  deriving DecidableEq

namespace Direction

/-- The opposite way. -/
def flip : Direction → Direction
  | ascending => descending
  | descending => ascending

/-- A list as it is met when going that way. -/
def orient : Direction → List α → List α
  | ascending, l => l
  | descending, l => l.reverse

/-- The element met first. -/
def extreme? : Direction → List α → Option α
  | ascending, l => l.head?
  | descending, l => l.getLast?

/-- What remains once the element met first is gone. -/
def dropExtreme : Direction → List α → List α
  | ascending, l => l.tail
  | descending, l => l.dropLast

@[simp] theorem flip_flip (d : Direction) : d.flip.flip = d := by
  cases d <;> rfl

theorem orient_flip (d : Direction) (l : List α) : d.flip.orient l = (d.orient l).reverse := by
  cases d <;> simp [flip, orient]

@[simp] theorem head?_orient (d : Direction) (l : List α) : (d.orient l).head? = d.extreme? l := by
  cases d <;> simp [orient, extreme?]

@[simp] theorem orient_orient (d : Direction) (l : List α) : d.orient (d.orient l) = l := by
  cases d <;> simp [orient]

@[simp] theorem mem_orient {d : Direction} {l : List α} {x : α} : x ∈ d.orient l ↔ x ∈ l := by
  cases d <;> simp [orient]

theorem filter_orient (d : Direction) (p : α → Bool) (l : List α) :
    (d.orient l).filter p = d.orient (l.filter p) := by
  cases d <;> simp [orient]

/-- The element met first stands before what remains without it. -/
theorem orient_of_extreme? {d : Direction} {l : List α} {x : α} (h : d.extreme? l = some x) :
    d.orient l = x :: d.orient (d.dropExtreme l) := by
  cases d with
  | ascending =>
    obtain ⟨r, rfl⟩ := List.head?_eq_some_iff.mp h
    rfl
  | descending =>
    obtain ⟨r, rfl⟩ := List.getLast?_eq_some_iff.mp h
    simp [orient, dropExtreme]

theorem mem_of_extreme? {d : Direction} {l : List α} {x : α} (h : d.extreme? l = some x) :
    x ∈ l := by
  rw [← mem_orient (d := d), orient_of_extreme? h]
  exact List.mem_cons_self

end Direction

end OrderedBag
