import OrderedBag.Traversal.Basic

/-!
# Views

A bag is reached through views. A source holds entries of its own; a range shows the entries of a
source that lie within an interval; a descending view shows another view backwards. Ranges do not
nest: a range of a range is a narrower range of the same source, and a range of a descending view
is a descending view of a range.

A view that somebody holds is a node of the registry. Views that only live for the length of one
operation have no node.

* `View.order` — the comparator by which a view is sorted
* `View.listing` — the entries that a view shows, for given contents
-/

namespace OrderedBag

variable {α : Type}

/-- The identity of a view that somebody holds. -/
abbrev NodeId := Nat

/-- What a source answers by itself, and what is derived from its traversal. -/
inductive Access
  /-- Looks everything up in its sorted entries, from either end. -/
  | indexed
  /-- Offers a live cursor from the first entry on; all the rest is derived from that. -/
  | sequential
  /-- Offers a copy of its entries; all the rest is derived from that. -/
  | copying
  /-- Like `copying`, and cannot be reached from its own views. -/
  | detached
  deriving DecidableEq

/-- Whether a running total is kept beside the entries, as under everything that can be indexed. -/
def Access.keepsTotal : Access → Bool
  | indexed | sequential => true
  | copying | detached => false

/-- A bag that holds its entries itself. -/
structure Source (α : Type) where
  /-- Its identity. -/
  node : NodeId
  /-- The place of its entries. -/
  bag : BagId
  /-- The order of its entries. -/
  comparator : Comparator α
  /-- What it answers by itself. -/
  access : Access

/-- Whether a view keeps alive what it refers to. -/
inductive Link
  /-- The view keeps it alive. -/
  | strong
  /-- The view must not outlive it. -/
  | weak
  deriving DecidableEq

/-- A sorted bag: a source, or something that shows a source's entries. -/
inductive View (α : Type)
  /-- The entries of a source. -/
  | source (s : Source α)
  /-- Those entries of a source that lie within an interval. -/
  | range (node : Option NodeId) (s : Source α) (r : Interval α)
  /-- The entries of another view, backwards. -/
  | descending (node : Option NodeId) (link : Link) (forward : View α)

namespace View

/-- The identity of a view that somebody holds. -/
def node? : View α → Option NodeId
  | source s => some s.node
  | range n _ _ => n
  | descending n _ _ => n

/-- The source whose entries are shown. -/
def root : View α → Source α
  | source s => s
  | range _ s _ => s
  | descending _ _ f => f.root

/-- The comparator by which the entries are sorted. -/
def order : View α → Comparator α
  | source s => s.comparator
  | range _ s _ => s.comparator
  | descending _ _ f => f.order.reversed

/-- The entries that are shown, in order. -/
def listing (contents : BagId → Histogram α) : View α → List (Entry α)
  | source s => (contents s.bag).entries
  | range _ s r =>
    (contents s.bag).entries.filter fun e => r.contains s.comparator e.element
  | descending _ _ f => (f.listing contents).reverse

/-- The nodes that the view keeps alive. -/
def keeps : View α → List NodeId
  | source _ => []
  | range _ s _ => [s.node]
  | descending _ .strong f => f.node?.toList
  | descending _ .weak _ => []

/-- Whether the view is a source that its own views cannot reach. -/
def isDetached : View α → Bool
  | source s => s.access == .detached
  | _ => false

end View

end OrderedBag
