import OrderedBag.ElementSet
import OrderedBag.EntrySet
import OrderedBag.IntervalExpr

/-!
# Commands and answers

What can be asked of a session. Commands refer to bags, sets, iterators, comparators and weak
references by name.

* `Command` — one command
* `Answer` — what a command answers if it succeeds
-/

namespace OrderedBag

variable {α : Type}

/-- What a name stands for. -/
inductive Handle (α : Type)
  /-- Holds a view. -/
  | bag (v : View α)
  /-- Holds a set of elements, and with it its view. -/
  | elements (s : ElementSet α)
  /-- Holds a set of entries, and with it its view. -/
  | entries (s : EntrySet α)
  /-- An open iterator, which holds no view. -/
  | walk (w : Walk α)
  /-- A comparator. -/
  | comparator (c : Comparator α)
  /-- A weak reference to a view. -/
  | weak (v : View α)

/-- The view that a handle holds. -/
def Handle.held : Handle α → Option NodeId
  | bag v => v.node?
  | elements s => s.view.node?
  | entries s => s.view.node?
  | walk _ | comparator _ | weak _ => none

/-- Where the comparator of a new source comes from. -/
inductive Sorting (α : Type)
  /-- An ordering function that is evaluated for the purpose. -/
  | evaluated (o : Order α)
  /-- A comparator that a name stands for. -/
  | named (name : String)

/-- The kinds of iterators over a bag. -/
inductive Visit (α : Type)
  /-- All entries, in a direction. -/
  | entries (d : Direction)
  /-- The entries in an interval, in a direction. -/
  | within (d : Direction) (q : IntervalExpr α)
  /-- The elements, each as often as it occurs. -/
  | occurrences

/-- The views that are made from a view. -/
inductive ViewStep (α : Type)
  /-- The entries before an endpoint. -/
  | head (hi : Endpoint α)
  /-- The entries after an endpoint. -/
  | tail (lo : Endpoint α)
  /-- The entries between two endpoints. -/
  | sub (lo hi : Endpoint α)
  /-- The entries backwards. -/
  | reversed
  /-- The view as it reaches itself. -/
  | itself

/-- The sets that are made from an element set. -/
inductive ElementStep (α : Type)
  /-- The elements before an endpoint. -/
  | head (hi : Endpoint α)
  /-- The elements after an endpoint. -/
  | tail (lo : Endpoint α)
  /-- The elements between two endpoints. -/
  | sub (lo hi : Endpoint α)
  /-- The elements backwards. -/
  | descending

/-- How a set is asked for its ranges and its reverse. Without flags, the lower end belongs to the
range and the upper end does not. -/
inductive SetRequest (α : Type)
  /-- The elements from `lo` on and before `hi`. -/
  | sub (lo hi : α)
  /-- The elements before `hi`. -/
  | head (hi : α)
  /-- The elements from `lo` on. -/
  | tail (lo : α)
  /-- The elements between `lo` and `hi`, each of them included or not. -/
  | subWith (lo : α) (loIncluded : Bool) (hi : α) (hiIncluded : Bool)
  /-- The elements before `hi`, which is included or not. -/
  | headWith (hi : α) (included : Bool)
  /-- The elements after `lo`, which is included or not. -/
  | tailWith (lo : α) (included : Bool)
  /-- The elements backwards. -/
  | descending

/-- The step that is requested. -/
def SetRequest.step : SetRequest α → ElementStep α
  | sub lo hi => .sub ⟨lo, .inclusive⟩ ⟨hi, .exclusive⟩
  | head hi => .head ⟨hi, .exclusive⟩
  | tail lo => .tail ⟨lo, .inclusive⟩
  | subWith lo loIncluded hi hiIncluded =>
    .sub ⟨lo, .ofInclusive loIncluded⟩ ⟨hi, .ofInclusive hiIncluded⟩
  | headWith hi included => .head ⟨hi, .ofInclusive included⟩
  | tailWith lo included => .tail ⟨lo, .ofInclusive included⟩
  | descending => .descending

/-- How a new handle is made. -/
inductive Making (α : Type)
  /-- An empty source. -/
  | source (a : Access) (sorting : Sorting α)
  /-- An indexed source of elements, in natural order. -/
  | ofElements (xs : List α)
  /-- An indexed source of entries, in natural order. -/
  | ofEntries (es : List (Entry α))
  /-- An indexed source of the entries of a bag, in natural order. -/
  | copyEntries (bag : String)
  /-- An indexed source of the occurrences in a bag, in natural order. -/
  | copyElements (bag : String)
  /-- A comparator that evaluates an ordering function. -/
  | comparator (o : Order α)
  /-- A weak reference to a bag. -/
  | weak (bag : String)
  /-- An iterator over a bag. -/
  | walk (bag : String) (visit : Visit α)
  /-- An iterator over an element set, in a direction. -/
  | walkElements (set : String) (d : Direction)
  /-- An iterator over an entry set. -/
  | walkEntries (set : String)
  /-- A view of a bag. -/
  | view (bag : String) (step : ViewStep α)
  /-- The comparator of a bag. -/
  | comparatorOf (bag : String)
  /-- The element set of a bag. -/
  | elementSet (bag : String)
  /-- The entry set of a bag. -/
  | entrySet (bag : String)
  /-- A set derived from an element set. -/
  | elements (set : String) (step : ElementStep α)
  /-- The bag behind an element set. -/
  | bagOfElements (set : String)
  /-- The comparator of an element set. -/
  | comparatorOfElements (set : String)
  /-- The bag behind an entry set. -/
  | bagOfEntries (set : String)
  /-- The reverse of a comparator. -/
  | reversedComparator (comparator : String)

/-- How a source is changed. -/
inductive Change (α : Type)
  /-- Adds one occurrence. -/
  | insert (x : α)
  /-- Adds several occurrences. -/
  | insertMany (x : α) (n : Nat)
  /-- Inserts elements one by one. -/
  | extend (xs : List α)
  /-- Inserts the occurrences in a bag while they are visited. -/
  | absorb (bag : String)
  /-- Removes one occurrence. -/
  | remove (x : α)
  /-- Removes every occurrence. -/
  | removeAll (x : α)
  /-- Removes everything. -/
  | clear

/-- What can be asked of a bag. -/
inductive BagQuery (α : Type)
  /-- The entries, in a direction. -/
  | entries (d : Direction)
  /-- The entries in an interval, in a direction. -/
  | within (d : Direction) (q : IntervalExpr α)
  /-- The entry met first in a direction. -/
  | extreme (d : Direction)
  /-- Removes the entry met first in a direction. -/
  | poll (d : Direction)
  /-- Removes the entry of an element. -/
  | take (x : α)
  /-- How often an element occurs. -/
  | count (x : α)
  /-- Whether an element occurs. -/
  | contains (x : α)
  /-- The number of occurrences. -/
  | size
  /-- The number of distinct elements. -/
  | distinctSize
  /-- Whether there is no entry. -/
  | isEmpty
  /-- The first occurrences. -/
  | occurrences (limit : Nat)
  /-- The outline on one line. -/
  | debug
  /-- The outline with one item to a line. -/
  | pretty

/-- What can be asked of an element set. -/
inductive ElementQuery (α : Type)
  /-- The element met first in a direction. -/
  | extreme (d : Direction)
  /-- The greatest lesser element. -/
  | lower (x : α)
  /-- The greatest element that is at most the given one. -/
  | floor (x : α)
  /-- The least element that is at least the given one. -/
  | ceiling (x : α)
  /-- The least greater element. -/
  | higher (x : α)
  /-- Removes the element met first in a direction. -/
  | poll (d : Direction)
  /-- Whether an element is in the set. -/
  | contains (x : α)
  /-- Removes an element. -/
  | remove (x : α)
  /-- Whether there is no element. -/
  | isEmpty
  /-- The number of elements. -/
  | size
  /-- The elements, in a direction. -/
  | elements (d : Direction)
  /-- The outline on one line. -/
  | debug
  /-- The outline with one item to a line. -/
  | pretty

/-- What can be asked of an entry set. -/
inductive EntryQuery (α : Type)
  /-- The entries. -/
  | entries
  /-- The number of entries. -/
  | size
  /-- Whether there is no entry. -/
  | isEmpty
  /-- Whether an entry is in the set. -/
  | contains (e : Entry α)
  /-- The entries for readers. -/
  | display
  /-- The outline on one line. -/
  | debug
  /-- The outline with one item to a line. -/
  | pretty

/-- What can be asked of a comparator. -/
inductive ComparatorQuery (α : Type)
  /-- How one element stands to another. -/
  | compare (a b : α)
  /-- Whether it equals another comparator. -/
  | equals (other : String)
  /-- Its text. -/
  | debug

/-- One command. -/
inductive Command (α : Type)
  /-- Makes something and gives it a name. -/
  | bind (name : String) (making : Making α)
  /-- Forgets a name. -/
  | drop (name : String)
  /-- Whether a weak reference leads anywhere. -/
  | isAlive (weak : String)
  /-- Whether two names stand for the same bag or set. -/
  | same (first second : String)
  /-- Asks an iterator several times. -/
  | next (walk : String) (n : Nat)
  /-- Changes a source. -/
  | change (bag : String) (c : Change α)
  /-- Asks a bag. -/
  | askBag (bag : String) (q : BagQuery α)
  /-- Asks an element set. -/
  | askElements (set : String) (q : ElementQuery α)
  /-- Asks an entry set. -/
  | askEntries (set : String) (q : EntryQuery α)
  /-- Asks a comparator. -/
  | askComparator (comparator : String) (q : ComparatorQuery α)

/-- What a command answers. -/
inductive Answer (α : Type)
  /-- Nothing but that it is done. -/
  | done
  /-- Yes or no. -/
  | flag (b : Bool)
  /-- A number. -/
  | number (n : Nat)
  /-- A count, if there is one. -/
  | maybeCount (n : Option Nat)
  /-- An entry, if there is one. -/
  | maybeEntry (e : Option (Entry α))
  /-- A list of entries. -/
  | entries (es : List (Entry α))
  /-- An element. -/
  | element (x : α)
  /-- An element, if there is one. -/
  | maybeElement (x : Option α)
  /-- A list of elements. -/
  | elements (xs : List α)
  /-- The results of asking an iterator. -/
  | items (is : List (Option (Item α)))
  /-- How one element stands to another. -/
  | ordering (o : Ordering)
  /-- A text. -/
  | text (s : String)
  deriving DecidableEq

end OrderedBag
