import OrderedBag.Source.Store
import OrderedBag.View.Scan

/-!
# Changing a source

Insertion adds to the entry of an element that compares equal, and fails without a change if that
entry could not hold more. The running total follows the entries; only an occurrence that is removed
on its own is taken off the total first. Extending inserts one occurrence at a time, so that a
failure leaves what was inserted before it. The occurrences of a view are visited while they are
inserted, and the view may be one of the very source that is extended.

* `Source.insert` — adds occurrences, and tells how many there were
* `Source.extend` — inserts the elements of a list
* `Source.absorb` — inserts the occurrences of a traversal, as they are reached
-/

namespace OrderedBag

variable {α : Type}

namespace Source

/-- The count that `x` has, if any. -/
def previous? (reg : Registry α) (s : Source α) (x : α) : Option Nat :=
  ((reg.contents s.bag).find? s.comparator x).map Entry.count

/-- Adds `n` occurrences of `x`, and tells how many there were. -/
def insert (s : Source α) (x : α) (n : Nat) : Action α (Option Nat) := do
  let reg ← get
  match (reg.contents s.bag).insert? s.comparator x n with
  | some h =>
    s.settle h ((reg.contents s.bag).total + n ≤ maxCount) .sum
    return s.previous? reg x
  | none => throw .entryOverflow

/-- Inserts elements one by one. -/
def extend (s : Source α) : List α → Action α Unit
  | [] => return ()
  | x :: xs => do
    let _ ← s.insert x 1
    s.extend xs

/-- Inserts one element `n` times. -/
def insertTimes (s : Source α) (x : α) : Nat → Action α Unit
  | 0 => return ()
  | n + 1 => do
    let _ ← s.insert x 1
    s.insertTimes x n

/-- Inserts the occurrences of at most `n` entries of a traversal, each when it is reached. -/
def absorbUpTo (s : Source α) : Nat → Traversal α → Action α Unit
  | 0, _ => return ()
  | n + 1, t => do
    match t.next (← get).contents with
    | (some e, t) =>
      s.insertTimes e.element e.count
      s.absorbUpTo n t
    | (none, _) => return ()

/-- Inserts the occurrences of a traversal, each when it is reached. Insertion adds no entry that
the traversal has yet to reach, so it ends after as many entries as are ahead of it. -/
def absorb (s : Source α) (t : Traversal α) : Action α Unit := do
  let reg ← get
  s.absorbUpTo (t.remaining reg.contents).length t

/-- Inserts entries one by one. -/
def insertEntries (s : Source α) : List (Entry α) → Action α Unit
  | [] => return ()
  | e :: es => do
    let _ ← s.insert e.element e.count
    s.insertEntries es

/-- Removes one occurrence of `x`, and tells how many there were. -/
def remove (s : Source α) (x : α) : Action α (Option Nat) := do
  let reg ← get
  let previous := s.previous? reg x
  s.checkTotal (previous.isNone || 1 ≤ (reg.contents s.bag).total) .difference
  s.replace ((reg.contents s.bag).removeOne s.comparator x)
  return previous

/-- Removes every occurrence of `x`, and tells how many there were. -/
def removeAll (s : Source α) (x : α) : Action α (Option Nat) := do
  let reg ← get
  let previous := s.previous? reg x
  s.settle ((reg.contents s.bag).erase s.comparator x)
    (previous.getD 0 ≤ (reg.contents s.bag).total) .difference
  return previous

/-- Removes everything. -/
def clear (s : Source α) : Action α Unit :=
  s.replace .empty

/-! ## Where totals wrap around -/

variable {reg : Registry α}

theorem perform_insert (hw : reg.arithmetic = .wrapping) (s : Source α) (x : α) (n : Nat) :
    (s.insert x n).perform reg =
      match (reg.contents s.bag).insert? s.comparator x n with
      | some h => (.ok (s.previous? reg x), reg.setContents s.bag h)
      | none => (.error .entryOverflow, reg) := by
  unfold insert
  rw [Action.perform_bind_ok (Action.perform_get reg)]
  cases (reg.contents s.bag).insert? s.comparator x n with
  | none => rfl
  | some h => exact Action.perform_bind_ok (perform_settle hw s h _ _)

theorem perform_remove (hw : reg.arithmetic = .wrapping) (s : Source α) (x : α) :
    (s.remove x).perform reg = (.ok (s.previous? reg x),
      reg.setContents s.bag ((reg.contents s.bag).removeOne s.comparator x)) := by
  unfold remove
  rw [Action.perform_bind_ok (Action.perform_get reg),
    Action.perform_bind_ok (perform_checkTotal hw s _ _),
    Action.perform_bind_ok (perform_replace s _ _), Action.perform_pure]

theorem perform_removeAll (hw : reg.arithmetic = .wrapping) (s : Source α) (x : α) :
    (s.removeAll x).perform reg = (.ok (s.previous? reg x),
      reg.setContents s.bag ((reg.contents s.bag).erase s.comparator x)) := by
  unfold removeAll
  rw [Action.perform_bind_ok (Action.perform_get reg),
    Action.perform_bind_ok (perform_settle hw s _ _ _), Action.perform_pure]

end Source

end OrderedBag
