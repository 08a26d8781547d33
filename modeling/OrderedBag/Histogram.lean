import OrderedBag.Arithmetic
import OrderedBag.Comparator
import OrderedBag.Direction
import OrderedBag.Entry

/-!
# Histograms

The contents of a bag: one entry for each distinct element, in the order of a comparator, and the
number of occurrences in all, which is kept up to date beside them and wraps around where it would
be out of range. An element that compares equal to a stored one adds to its entry, and the entry
keeps the element that it has.

* `Histogram.Valid` — what every operation keeps: entries strictly increasing, counts in range, and
  the running total equal to the sum of the counts, but for wrapping around
* `Histogram.insert?` — fails exactly when the count of one entry would become too large
-/

namespace OrderedBag

variable {α : Type}

/-- The entries of a bag, with their total. -/
structure Histogram (α : Type) where
  /-- One entry for each distinct element, in increasing order. -/
  entries : List (Entry α)
  /-- The number of occurrences, over all entries, which wraps around. -/
  total : Nat

namespace Histogram

/-- What every operation on the contents of a bag keeps. -/
structure Valid (c : Comparator α) (h : Histogram α) : Prop where
  /-- The elements are strictly increasing. -/
  sorted : h.entries.Pairwise fun d e => c.compare d.element e.element = .lt
  /-- Every count is one that an entry can hold. -/
  counts : ∀ e ∈ h.entries, e.Valid
  /-- The running total is the sum of the counts, but for wrapping around. -/
  total_eq : h.total = wrap (totalCount h.entries)

/-- No entry at all. -/
def empty : Histogram α :=
  ⟨[], 0⟩

/-- The entry of the element that compares equal to `x`. -/
def find? (c : Comparator α) (h : Histogram α) (x : α) : Option (Entry α) :=
  h.entries.find? fun e => (c.compare e.element x).isEq

/-- How often `x` occurs. -/
def multiplicity (c : Comparator α) (h : Histogram α) (x : α) : Nat :=
  ((h.find? c x).map Entry.count).getD 0

/-- Adds `n` occurrences of `x` to a sorted list of entries. -/
def addTo (c : Comparator α) (x : α) (n : Nat) : List (Entry α) → List (Entry α)
  | [] => [⟨x, n⟩]
  | e :: es =>
    match c.compare x e.element with
    | .lt => ⟨x, n⟩ :: e :: es
    | .eq => ⟨e.element, e.count + n⟩ :: es
    | .gt => e :: addTo c x n es

/-- Adds `n` occurrences of `x`, unless its entry could not hold them. -/
def insert? (c : Comparator α) (h : Histogram α) (x : α) (n : Nat) : Option (Histogram α) :=
  if h.multiplicity c x + n ≤ maxCount then
    some ⟨addTo c x n h.entries, wrap (h.total + n)⟩
  else
    none

/-- Takes one occurrence of `x` out of a list of entries. -/
def removeFrom (c : Comparator α) (x : α) : List (Entry α) → List (Entry α)
  | [] => []
  | e :: es =>
    if (c.compare e.element x).isEq then
      if e.count ≤ 1 then es else ⟨e.element, e.count - 1⟩ :: es
    else
      e :: removeFrom c x es

/-- Takes one occurrence of `x` out, if there is one. -/
def removeOne (c : Comparator α) (h : Histogram α) (x : α) : Histogram α :=
  match h.find? c x with
  | some _ => ⟨removeFrom c x h.entries, wrapSub h.total 1⟩
  | none => h

/-- Takes the entry of `x` out, with all of its occurrences. -/
def erase (c : Comparator α) (h : Histogram α) (x : α) : Histogram α :=
  match h.find? c x with
  | some e => ⟨h.entries.eraseP fun e => (c.compare e.element x).isEq,
    wrapSub h.total e.count⟩
  | none => h

/-- Takes out the entry met first in a direction. -/
def eraseExtreme (h : Histogram α) (d : Direction) : Histogram α :=
  match d.extreme? h.entries with
  | some e => ⟨d.dropExtreme h.entries, wrapSub h.total e.count⟩
  | none => h

/-! ## What each operation does -/

/-- Adding occurrences to one entry adds them to the sum. -/
theorem totalCount_addTo (c : Comparator α) (x : α) (n : Nat) (es : List (Entry α)) :
    totalCount (addTo c x n es) = totalCount es + n := by
  induction es with
  | nil => simp [addTo]
  | cons e es ih =>
    unfold addTo
    split
    · rw [totalCount_cons, Nat.add_comm]
    · simp only [totalCount_cons]
      omega
    · simp only [totalCount_cons, ih]
      omega

/-- An insertion is refused exactly when the entry could not hold the occurrences. -/
theorem insert?_eq_none_iff (c : Comparator α) (h : Histogram α) (x : α) (n : Nat) :
    h.insert? c x n = none ↔ maxCount < h.multiplicity c x + n := by
  unfold insert?
  split <;> simp <;> omega

theorem valid_empty (c : Comparator α) : (empty : Histogram α).Valid c :=
  ⟨.nil, by simp [empty], rfl⟩

end Histogram

end OrderedBag
