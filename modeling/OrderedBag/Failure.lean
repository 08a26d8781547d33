/-!
# Failures and log records

The ways in which an operation can fail, and what is written to the log on the way.
-/

namespace OrderedBag

/-- Which number is out of range. -/
inductive Misfit
  /-- The count of an entry, above the largest. -/
  | count
  /-- A total, above the largest. -/
  | sum
  /-- A total, below zero. -/
  | difference
  deriving DecidableEq

/-- Why an operation failed. -/
inductive Failure
  /-- The lower end of a range is ordered after its upper end. -/
  | invalidRange
  /-- An extreme element of an empty set was asked for. -/
  | noSuchElement
  /-- A number would be out of range. Which one it is shows in the wording alone. -/
  | countOverflow {misfit : Misfit}
  /-- A view refers weakly to a bag that is gone. -/
  | ownerDropped
  /-- The bag cannot be reached through itself. -/
  | detached
  /-- A name is not bound to a handle of the kind that a command needs. -/
  | unsuitableHandle (name : String)
  deriving DecidableEq

/-- The count of an entry would exceed the largest. -/
abbrev Failure.entryOverflow : Failure := @countOverflow .count

/-- The wording of a failure. -/
def Failure.message : Failure → String
  | invalidRange => "range lower bound is ordered after its upper bound"
  | noSuchElement => "no such element"
  | @countOverflow .count => "Multiplicity counter has overflown"
  | @countOverflow .sum => "attempt to add with overflow"
  | @countOverflow .difference => "attempt to subtract with overflow"
  | ownerDropped => "Cached views cannot be used after their multiset is dropped"
  | detached => "Multisets can only be reached through their Rc"
  | unsuitableHandle name => name ++ " is not bound to a suitable handle"

/-- What the log tells. -/
inductive Record
  /-- A range view was built. -/
  | rangeView
  /-- A descending view was built. -/
  | descendingView
  /-- An element set was built. -/
  | elementSet
  /-- An entry set was built. -/
  | entrySet
  /-- The endpoints of a range were refused. -/
  | rejectedRange
  deriving DecidableEq

/-- The level and the wording of a record. -/
def Record.line : Record → String
  | rangeView => "TRACE Building a range view"
  | descendingView => "TRACE Building a descending view"
  | elementSet => "TRACE Building an element set view"
  | entrySet => "TRACE Building an entry set view"
  | rejectedRange =>
    "DEBUG Rejected a range whose lower bound is ordered after its upper bound"

end OrderedBag
