import OrderedBag.Session.Making
import OrderedBag.Text.Display

/-!
# Answering questions

What each question to a bag, a set or a comparator answers, and how sources are changed.
-/

namespace OrderedBag

variable {α : Type}

namespace Traversal

/-- All entries that have yet to be yielded. -/
def drain (t : Traversal α) : Action α (List (Entry α)) := do
  return t.remaining (← get).contents

end Traversal

namespace View

/-- The entries that are shown now, in a direction. -/
def drain (v : View α) (d : Direction) : Action α (List (Entry α)) := do
  (← Action.reading fun reg => v.scan reg d).drain

end View

/-- Changes a source. A source that is not indexed or sequential does not tell what was there before
an insertion. -/
def Change.run (t : Table α) (s : Source α) : Change α → Action α (Answer α)
  | insert x => do
    let previous ← s.insert x 1
    match s.access with
    | .indexed | .sequential => return .maybeCount previous
    | .copying | .detached => return .done
  | insertMany x n => return .maybeCount (← s.insert x n)
  | extend xs => do
    s.extend xs
    return .done
  | absorb name => do
    let v ← t.bag name
    s.absorb (← Action.reading fun reg => v.scan reg .ascending)
    return .done
  | remove x => return .maybeCount (← s.remove x)
  | removeAll x => return .maybeCount (← s.removeAll x)
  | clear => do
    s.clear
    return .done

variable [Shown α]

/-- Asks a bag. -/
def BagQuery.run (v : View α) : BagQuery α → Action α (Answer α)
  | entries d => return .entries (← v.drain d)
  | within d q => return .entries (← (← v.scanExpr d q).drain)
  | extreme d => return .maybeEntry (← Action.reading fun reg => v.extreme? reg d)
  | poll d => return .maybeEntry (← v.poll d)
  | take x => return .maybeEntry (← v.take x)
  | count x => return .number (← v.count x)
  | contains x => return .flag (← v.contains x)
  | size => return .number (← Action.reading v.size)
  | distinctSize => return .number (← Action.reading v.distinctSize)
  | isEmpty => return .flag (← Action.reading v.isEmpty)
  | occurrences limit => do
    let o ← Action.reading v.occurrences
    return .elements (o.take (← get).contents limit)
  | debug => return .text (sketchEntries (← v.drain .ascending)).compact
  | pretty => return .text (sketchEntries (← v.drain .ascending)).pretty

/-- Asks an element set. -/
def ElementQuery.run (s : ElementSet α) : ElementQuery α → Action α (Answer α)
  | extreme d => return .element (← s.extreme d)
  | lower x => return .maybeElement (← s.lower x)
  | floor x => return .maybeElement (← s.floor x)
  | ceiling x => return .maybeElement (← s.ceiling x)
  | higher x => return .maybeElement (← s.higher x)
  | poll d => return .maybeElement (← s.poll d)
  | contains x => return .flag (← s.contains x)
  | remove x => return .flag (← s.remove x)
  | isEmpty => return .flag (← s.isEmpty)
  | size => return .number (← s.size)
  | elements d => return .elements ((← (← s.scanTowards d).drain).map Entry.element)
  | debug => return .text (sketchElements (← (← s.scan).drain)).compact
  | pretty => return .text (sketchElements (← (← s.scan).drain)).pretty

/-- Asks an entry set. -/
def EntryQuery.run (s : EntrySet α) : EntryQuery α → Action α (Answer α)
  | entries => return .entries (← (← s.scan).drain)
  | size => return .number (← s.size)
  | isEmpty => return .flag (← s.isEmpty)
  | contains e => return .flag (← s.contains e)
  | display => return .text (displayEntries (← (← s.scan).drain))
  | debug => return .text (sketchEntries (← (← s.scan).drain)).compact
  | pretty => return .text (sketchEntries (← (← s.scan).drain)).pretty

/-- Asks a comparator. -/
def ComparatorQuery.run (t : Table α) (c : Comparator α) : ComparatorQuery α → Action α (Answer α)
  | compare a b => return .ordering (c.compare a b)
  | equals other => return .flag (c == (← t.comparator other))
  | debug => return .text c.debug

end OrderedBag
