import OrderedBag.Traversal.Basic

/-!
# Walks

What an open iterator yields: entries, distinct elements, or elements as often as they occur. An
element is repeated as often as its entry said when the entry was reached.

* `Occurrences.next` — yields the occurrences of the current entry, then moves to the next
* `Walk.next` — the next item of any open iterator
-/

namespace OrderedBag

variable {α : Type}

/-- A visit of elements, each as often as it occurs. -/
structure Occurrences (α : Type) where
  /-- The entries that have yet to be reached. -/
  entries : Traversal α
  /-- The element that is being repeated, and how often it is still due. -/
  current : Option (α × Nat)

namespace Occurrences

/-- A visit that has reached no entry. -/
def begin (t : Traversal α) : Occurrences α :=
  ⟨t, none⟩

/-- Yields the next occurrence. -/
def next (contents : BagId → Histogram α) (o : Occurrences α) : Option α × Occurrences α :=
  match o.current with
  | some (x, n + 1) => (some x, { o with current := some (x, n) })
  | _ =>
    match o.entries.next contents with
    | (some e, t) => (some e.element, ⟨t, some (e.element, e.count - 1)⟩)
    | (none, t) => (none, ⟨t, none⟩)

/-- The first `n` occurrences, or all if there are fewer. -/
def take (contents : BagId → Histogram α) : Nat → Occurrences α → List α
  | 0, _ => []
  | n + 1, o =>
    match o.next contents with
    | (some x, o) => x :: take contents n o
    | (none, _) => []

end Occurrences

/-- An item that an iterator yields. -/
inductive Item (α : Type)
  /-- A distinct element with its count. -/
  | entry (e : Entry α)
  /-- An element. -/
  | element (x : α)
  deriving DecidableEq

/-- An open iterator. -/
inductive Walk (α : Type)
  /-- Yields entries. -/
  | entries (t : Traversal α)
  /-- Yields the element of each entry once. -/
  | elements (t : Traversal α)
  /-- Yields each element as often as it occurs. -/
  | occurrences (o : Occurrences α)

namespace Walk

/-- Yields the next item. -/
def next (contents : BagId → Histogram α) : Walk α → Option (Item α) × Walk α
  | entries t =>
    let (e, t) := t.next contents
    (e.map .entry, entries t)
  | elements t =>
    let (e, t) := t.next contents
    (e.map fun e => .element e.element, elements t)
  | occurrences o =>
    let (x, o) := o.next contents
    (x.map .element, occurrences o)

/-- The results of asking `n` times, and the iterator after that. -/
def nexts (contents : BagId → Histogram α) : Nat → Walk α → List (Option (Item α)) × Walk α
  | 0, w => ([], w)
  | n + 1, w =>
    let (i, w) := w.next contents
    let (is, w) := nexts contents n w
    (i :: is, w)

end Walk

end OrderedBag
