import OrderedBag.Traversal.Cursor

/-!
# Traversals

A traversal visits entries one at a time, and bags may change while it is under way. It draws on a
live cursor or on a list of entries that was copied when it was opened, and may pass through a gate
that lets only the entries of an interval through.

A gate skips entries as long as they are too low, and closes for good at the first entry that is
too high; after the first entry which is not too low it never skips again.

* `Traversal.remaining` — what a traversal would yield from now on if nothing changed
* `Traversal.next` — yields the next entry
-/

namespace OrderedBag

variable {α : Type}

/-- The place of a bag's contents. -/
abbrev BagId := Nat

/-- Where the entries of a traversal come from. -/
inductive Feed (α : Type)
  /-- A live cursor in the contents of a bag. -/
  | live (bag : BagId) (cursor : Cursor α)
  /-- The rest of a copied list. -/
  | copied (rest : List (Entry α))

/-- Skipping from the front ends at the first element that is not skipped. -/
theorem head?_dropWhile (p : α → Bool) (l : List α) :
    (l.dropWhile p).head? = l.find? fun x => !p x := by
  induction l with
  | nil => rfl
  | cons x l ih => cases hp : p x <;> simp [hp, ih]

namespace Feed

/-- The entries that have yet to come. -/
def remaining (contents : BagId → Histogram α) : Feed α → List (Entry α)
  | live b k => k.remaining (contents b)
  | copied es => es

/-- Yields the first remaining entry that fulfils `p`, and passes over the ones before it. -/
def advance (p : Entry α → Bool) (contents : BagId → Histogram α) :
    Feed α → Option (Entry α) × Feed α
  | live b k =>
    let (e, k) := k.advance p (contents b)
    (e, live b k)
  | copied es =>
    match es.dropWhile fun e => !p e with
    | e :: rest => (some e, copied rest)
    | [] => (none, copied [])

theorem advance_fst (p : Entry α → Bool) (contents : BagId → Histogram α) (f : Feed α) :
    (f.advance p contents).1 = (f.remaining contents).find? p := by
  cases f with
  | live b k =>
    unfold advance remaining Cursor.advance
    cases h : (k.remaining (contents b)).find? p <;> simp [h]
  | copied es =>
    show (match es.dropWhile fun e => !p e with
      | e :: rest => (some e, copied rest)
      | [] => (none, copied [])).1 = es.find? p
    have h := head?_dropWhile (fun e => !p e) es
    simp only [Bool.not_not] at h
    rw [← h]
    cases es.dropWhile fun e => !p e <;> rfl

end Feed

/-- The state of a gate that lets the entries of an interval through. -/
structure Gate (α : Type) where
  /-- The order in which the entries come. -/
  comparator : Comparator α
  /-- The interval that is let through. -/
  interval : Interval α
  /-- Whether an entry that is not too low has been met. -/
  entered : Bool
  /-- Whether an entry that is too high has been met. -/
  closed : Bool

/-- A gate that has met no entry. -/
def Gate.initial (c : Comparator α) (r : Interval α) : Gate α :=
  ⟨c, r, false, false⟩

/-- A visit of entries that is under way. -/
inductive Traversal (α : Type)
  /-- Yields all that its feed yields. -/
  | direct (feed : Feed α)
  /-- Yields what the gate lets through. -/
  | gated (gate : Gate α) (feed : Feed α)

namespace Traversal

/-- The entries that have yet to be yielded. -/
def remaining (contents : BagId → Histogram α) : Traversal α → List (Entry α)
  | direct f => f.remaining contents
  | gated g f =>
    if g.closed then []
    else
      let ahead := f.remaining contents
      let inside :=
        if g.entered then ahead
        else ahead.dropWhile fun e => g.interval.tooLow g.comparator e.element
      inside.takeWhile fun e => !g.interval.tooHigh g.comparator e.element

/-- Yields the next entry. -/
def next (contents : BagId → Histogram α) : Traversal α → Option (Entry α) × Traversal α
  | direct f =>
    let (e, f) := f.advance (fun _ => true) contents
    (e, direct f)
  | gated g f =>
    if g.closed then (none, gated g f)
    else
      let welcome : Entry α → Bool := fun e =>
        g.entered || !g.interval.tooLow g.comparator e.element
      match f.advance welcome contents with
      | (none, f) => (none, gated g f)
      | (some e, f) =>
        if g.interval.tooHigh g.comparator e.element then
          (none, gated { g with entered := true, closed := true } f)
        else
          (some e, gated { g with entered := true } f)

/-- The results of asking `n` times. -/
def nexts (contents : BagId → Histogram α) : Nat → Traversal α → List (Option (Entry α))
  | 0, _ => []
  | n + 1, t =>
    let (e, t) := t.next contents
    e :: nexts contents n t

/-- The next entry is the first of those that remain. -/
theorem next_fst (contents : BagId → Histogram α) (t : Traversal α) :
    (t.next contents).1 = (t.remaining contents).head? := by
  cases t with
  | direct f =>
    show (f.advance (fun _ => true) contents).1 = (f.remaining contents).head?
    rw [Feed.advance_fst]
    cases f.remaining contents <;> simp
  | gated g f =>
    cases hc : g.closed with
    | true => simp [next, remaining, hc]
    | false =>
      have h : (f.advance (fun e => g.entered || !g.interval.tooLow g.comparator e.element)
          contents).1 = (if g.entered = true then f.remaining contents
            else (f.remaining contents).dropWhile
              fun e => g.interval.tooLow g.comparator e.element).head? := by
        rw [Feed.advance_fst]
        cases g.entered with
        | true => cases f.remaining contents <;> simp
        | false => simp [head?_dropWhile]
      simp only [next, remaining, hc, Bool.false_eq_true, if_false, List.head?_takeWhile, ← h]
      rcases f.advance (fun e => g.entered || !g.interval.tooLow g.comparator e.element)
        contents with ⟨_ | e, f'⟩
      · rfl
      · cases hh : g.interval.tooHigh g.comparator e.element <;> simp [Option.filter_some, hh]

end Traversal

end OrderedBag
