import OrderedBag.Session.Table
import OrderedBag.Source.Change

/-!
# Making handles

A view that gets a name becomes a node of the registry, together with the views that it refers to.

* `Making.run` — makes the handle that a command describes
-/

namespace OrderedBag

variable {α : Type}

/-- The interval that an expression describes; the log tells of a refusal. -/
def IntervalExpr.require (c : Comparator α) (q : IntervalExpr α) : Action α (Interval α) :=
  match q.eval c with
  | some r => return r
  | none => do
    Action.record .rejectedRange
    throw .invalidRange

/-- Opens a traversal of the entries in an interval that is read under the view's comparator. -/
def View.scanExpr (v : View α) (d : Direction) (q : IntervalExpr α) : Action α (Traversal α) := do
  let c ← v.comparator
  let r ← q.require c
  Action.reading fun reg => v.scanWithin reg d r

/-- Makes an empty indexed source in natural order. -/
def Source.makeNatural [Ord α] [Std.TransOrd α] : Action α (Source α) :=
  Action.updating fun reg =>
    let (c, reg) := reg.evaluate .natural
    reg.addSource c .indexed

/-- The comparator for a new source. -/
def Sorting.run (t : Table α) : Sorting α → Action α (Comparator α)
  | evaluated o => Action.updating fun reg => reg.evaluate o
  | named name => t.comparator name

/-- Makes a view from a view. -/
def ViewStep.run (v : View α) : ViewStep α → Action α (View α)
  | head hi => v.head hi
  | tail lo => v.tail lo
  | sub lo hi => v.sub lo hi
  | reversed => v.reversed
  | itself => v.reachItself

/-- Makes an element set from an element set. -/
def ElementStep.run (s : ElementSet α) : ElementStep α → Action α (ElementSet α)
  | head hi => s.head hi
  | tail lo => s.tail lo
  | sub lo hi => s.sub lo hi
  | descending => s.descending

/-- Opens an iterator over a bag. -/
def Visit.run (v : View α) : Visit α → Action α (Walk α)
  | entries d => return .entries (← Action.reading fun reg => v.scan reg d)
  | within d q => return .entries (← v.scanExpr d q)
  | occurrences => return .occurrences (← Action.reading fun reg => v.occurrences reg)

/-- Opens a traversal of an element set, in a direction. To go down, it asks the descending set. -/
def ElementSet.scanTowards (s : ElementSet α) : Direction → Action α (Traversal α)
  | .ascending => s.scan
  | .descending => do (← s.descending).scan

/-- The handle of a view, which gets a node. -/
def Handle.ofView (v : View α) : Action α (Handle α) := do
  return .bag (← Action.updating fun reg => reg.enroll v)

/-- The handle of an element set, whose view gets a node. -/
def Handle.ofElements (s : ElementSet α) : Action α (Handle α) := do
  return .elements { s with view := ← Action.updating fun reg => reg.enroll s.view }

namespace Making

variable [Ord α] [Std.TransOrd α]

/-- Makes the handle that is described. -/
def run (t : Table α) : Making α → Action α (Handle α)
  | source a sorting => do
    let c ← sorting.run t
    return .bag (.source (← Action.updating fun reg => reg.addSource c a))
  | ofElements xs => do
    let s ← Source.makeNatural
    s.extend xs
    return .bag (.source s)
  | ofEntries es => do
    let s ← Source.makeNatural
    s.insertEntries es
    return .bag (.source s)
  | copyEntries name => do
    let v ← t.bag name
    let es ← Action.reading v.entries
    let s ← Source.makeNatural
    s.insertEntries es
    return .bag (.source s)
  | copyElements name => do
    let v ← t.bag name
    let walk ← Action.reading fun reg => v.scan reg .ascending
    let s ← Source.makeNatural
    s.absorb walk
    return .bag (.source s)
  | comparator o => return .comparator (← Action.updating fun reg => reg.evaluate o)
  | weak name => return .weak (← t.bag name)
  | walk name visit => do return .walk (← visit.run (← t.bag name))
  | walkElements name d => do return .walk (.elements (← (← t.elements name).scanTowards d))
  | walkEntries name => do return .walk (.entries (← (← t.entries name).scan))
  | view name step => do Handle.ofView (← step.run (← t.bag name))
  | comparatorOf name => do return .comparator (← (← t.bag name).comparator)
  | elementSet name => do return .elements (← (← t.bag name).elementSet)
  | entrySet name => do return .entries (← (← t.bag name).entrySet)
  | elements name step => do Handle.ofElements (← step.run (← t.elements name))
  | bagOfElements name => do Handle.ofView (← (← t.elements name).bag)
  | comparatorOfElements name => do return .comparator (← (← t.elements name).comparator)
  | bagOfEntries name => do Handle.ofView (← (← t.entries name).bag)
  | reversedComparator name => do return .comparator (← t.comparator name).reversed

end Making

end OrderedBag
