import OrderedBag.Source.Store
import OrderedBag.View.Scan

/-!
# Removing through views

Every view removes from the source behind it. A range removes nothing that lies outside its
interval. An entry always goes as a whole, with all of its occurrences.

* `View.take` — removes the entry of an element
* `View.poll` — removes the first entry in a direction
-/

namespace OrderedBag

variable {α : Type}

namespace Source

/-- Stores what is left when an entry is gone, and answers the entry. -/
def lose (s : Source α) (e? : Option (Entry α)) (h : Histogram α) :
    Action α (Option (Entry α)) := do
  let total := ((← get).contents s.bag).total
  s.settle h ((e?.map Entry.count).getD 0 ≤ total) .difference
  return e?

/-- Removes the entry of `x`. -/
def take (s : Source α) (x : α) : Action α (Option (Entry α)) := do
  let h := (← get).contents s.bag
  s.lose (h.find? s.comparator x) (h.erase s.comparator x)

/-- Removes the entry met first in a direction. An indexed source takes it off that end; the others
find it first, and then remove it as any other. -/
def poll (s : Source α) (d : Direction) : Action α (Option (Entry α)) :=
  match s.access with
  | .indexed => do
    let h := (← get).contents s.bag
    s.lose (d.extreme? h.entries) (h.eraseExtreme d)
  | _ => do
    match s.extreme? (← get).contents d with
    | some e => s.take e.element
    | none => return none

variable {reg : Registry α}

theorem perform_lose (hw : reg.arithmetic = .wrapping) (s : Source α) (e? : Option (Entry α))
    (h : Histogram α) : (s.lose e? h).perform reg = (.ok e?, reg.setContents s.bag h) := by
  unfold lose
  rw [Action.perform_bind_ok (Action.perform_get reg),
    Action.perform_bind_ok (perform_settle hw s h _ _), Action.perform_pure]

theorem perform_take (hw : reg.arithmetic = .wrapping) (s : Source α) (x : α) :
    (s.take x).perform reg = (.ok ((reg.contents s.bag).find? s.comparator x),
      reg.setContents s.bag ((reg.contents s.bag).erase s.comparator x)) := by
  unfold take
  rw [Action.perform_bind_ok (Action.perform_get reg), perform_lose hw]

end Source

namespace View

/-- Removes the entry of `x`. -/
def take : View α → α → Action α (Option (Entry α))
  | source s, x => s.take x
  | range _ s r, x => if r.contains s.comparator x then s.take x else return none
  | descending _ link f, x => do
    Action.follow link f
    f.take x

/-- Removes the entry met first in a direction. -/
def poll : View α → Direction → Action α (Option (Entry α))
  | source s, d => s.poll d
  | range n s r, d => do
    match ← Action.reading fun reg => (range n s r).extreme? reg d with
    | some e => (range n s r).take e.element
    | none => return none
  | descending _ link f, d => do
    Action.follow link f
    f.poll d.flip

end View

end OrderedBag
