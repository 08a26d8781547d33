import OrderedBag.Proofs.Extending
import OrderedBag.Proofs.LiveCursors

/-!
# Safe look-ups

The sorted map behind an indexed source refuses to look up a window that starts after its end, and
one of which both bounds exclude the same element. A cursor makes a new window for each call, from
the interval that it was given and the element that it yielded last, and asks only at the beginning
whether that interval has any room. None of its windows is ever refused: the element yielded last
was found in the window before, so it lies on the inner side of the bound that is kept.

* `Window.isRefused`, `Histogram.lookUp?` — which windows are refused, and the look-up in the others
* `Cursor.next?` — a call of a cursor, made with that look-up
* `Cursor.Ready` — the invariant: the next window is not refused
* `Cursor.answers?_begin` — every call of a cursor gives a result, whatever is stored meanwhile
* `Session.visits_lookups` — so does every call of an iterator, whatever happens between the calls
* `Session.Reachable.ready` — in every reachable session all open iterators fulfil the invariant
-/

namespace OrderedBag

open Std OrderedBag.Action

variable {α : Type} {c : Comparator α} {r : Interval α} {d : Direction}

/-! ## Look-ups that are refused -/

namespace Bound

/-- The element at a bound. -/
def element? : Bound α → Option α
  | included a | excluded a => some a
  | unbounded => none

/-- Whether the element at the bound is left out. -/
def isExcluded : Bound α → Bool
  | excluded _ => true
  | included _ | unbounded => false

end Bound

namespace Window

/-- Whether a look-up is refused: the window starts after its end, or starts and ends at the same
element, which neither bound includes. -/
def isRefused (cmp : α → α → Ordering) (w : Window α) : Bool :=
  match w.start.element?, w.finish.element? with
  | some a, some b =>
    match cmp a b with
    | .lt => false
    | .eq => w.start.isExcluded && w.finish.isExcluded
    | .gt => true
  | _, _ => false

/-- What follows an element of a window can be looked up. -/
theorem isRefused_after {cmp : α → α → Ordering} {w : Window α} {x : α}
    (hx : w.contains cmp x = true) : isRefused cmp ⟨.excluded x, w.finish⟩ = false := by
  obtain ⟨start, finish⟩ := w
  obtain ⟨-, hx⟩ := Bool.and_eq_true_iff.mp hx
  cases finish with
  | unbounded => rfl
  | included b => cases h : cmp x b <;> simp_all [isRefused, Bound.element?, Bound.isExcluded,
      Bound.admitsBefore]
  | excluded b => cases h : cmp x b <;> simp_all [isRefused, Bound.element?, Bound.admitsBefore]

/-- What precedes an element of a window can be looked up. -/
theorem isRefused_before {cmp : α → α → Ordering} {w : Window α} {x : α}
    (hx : w.contains cmp x = true) : isRefused cmp ⟨w.start, .excluded x⟩ = false := by
  obtain ⟨start, finish⟩ := w
  obtain ⟨hx, -⟩ := Bool.and_eq_true_iff.mp hx
  cases start with
  | unbounded => rfl
  | included a => cases h : cmp a x <;> simp_all [isRefused, Bound.element?, Bound.isExcluded,
      Bound.admitsAfter]
  | excluded a => cases h : cmp a x <;> simp_all [isRefused, Bound.element?, Bound.admitsAfter]

end Window

@[simp] theorem Endpoint.element?_bound (p : Endpoint α) : p.bound.element? = some p.element := by
  obtain ⟨x, edge⟩ := p
  cases edge <;> rfl

@[simp] theorem Endpoint.isExcluded_bound (p : Endpoint α) :
    p.bound.isExcluded = (p.edge == .exclusive) := by
  obtain ⟨x, edge⟩ := p
  cases edge <;> rfl

/-- The window of an interval with room can be looked up. -/
theorem Interval.isRefused_window (h : r.isEmpty c = false) :
    r.window.isRefused c.compare = false := by
  obtain ⟨lower, upper⟩ := r
  cases lower with
  | none => rfl
  | some p =>
    cases upper with
    | none => cases hp : p.bound <;> simp [window, startBound, endBound, Window.isRefused, hp,
        Bound.element?]
    | some q =>
      simp only [window, startBound, endBound, Window.isRefused, Option.map_some, Option.getD_some,
        Endpoint.element?_bound, Endpoint.isExcluded_bound]
      simp only [isEmpty] at h
      cases hpq : c.compare p.element q.element <;> simp_all

/-- The entries in a window, which are looked up in the sorted entries of a bag. -/
def Histogram.lookUp? (c : Comparator α) (w : Window α) (h : Histogram α) :
    Option (List (Entry α)) :=
  if w.isRefused c.compare then none
  else some (h.entries.filter fun e => w.contains c.compare e.element)

/-! ## Cursors -/

namespace Cursor

/-- Yields the next entry, which is looked up; there is no result if the look-up is refused. -/
def next? (h : Histogram α) (k : Cursor α) : Option (Option (Entry α) × Cursor α) :=
  if k.exhausted then some (none, k)
  else (h.lookUp? k.comparator k.window).map fun es =>
    match k.direction.extreme? es with
    | some e => (some e, { k with last := some e.element })
    | none => (none, { k with exhausted := true })

/-- What a cursor answers when it is asked once for each of the contents. There is no result if any
look-up is refused. -/
def answers? : Cursor α → List (Histogram α) → Option (List (Option (Entry α)))
  | _, [] => some []
  | k, h :: hs => do
    let (answer, k) ← k.next? h
    let answers ← answers? k hs
    return answer :: answers

/-- The windows that are looked up meanwhile. An exhausted cursor looks nothing up. -/
def lookups : Cursor α → List (Histogram α) → List (Window α)
  | _, [] => []
  | k, h :: hs => (if k.exhausted then [] else [k.window]) ++ lookups (k.next h).2 hs

/-- The next look-up is not refused. -/
def Ready (k : Cursor α) : Prop :=
  k.exhausted = false → k.window.isRefused k.comparator.compare = false

theorem ready_begin (c : Comparator α) (r : Interval α) (d : Direction) : (begin c r d).Ready :=
  Interval.isRefused_window

theorem ready_of_exhausted {k : Cursor α} (hk : k.exhausted = true) : k.Ready :=
  fun h => by rw [hk] at h; cases h

/-- The window of a cursor in its direction reaches to one end of its interval. -/
theorem window_last (k : Cursor α) (x : α) :
    ({ k with last := some x } : Cursor α).window =
      match k.direction with
      | .ascending => ⟨.excluded x, k.window.finish⟩
      | .descending => ⟨k.window.start, .excluded x⟩ := by
  obtain ⟨c, r, d, last, exhausted⟩ := k
  cases last <;> cases d <;> rfl

/-- A cursor that yields an element of its window is ready for what lies beyond. -/
theorem ready_last {k : Cursor α} {x : α} (hx : k.admits x = true) :
    ({ k with last := some x } : Cursor α).Ready := by
  intro _
  rw [window_last]
  cases k.direction with
  | ascending => exact Window.isRefused_after hx
  | descending => exact Window.isRefused_before hx

/-- What remains for a cursor lies in its window. -/
theorem admits_of_mem_remaining {h : Histogram α} {k : Cursor α} {e : Entry α}
    (he : e ∈ k.remaining h) : k.exhausted = false ∧ k.admits e.element = true := by
  cases hk : k.exhausted with
  | true => simp [remaining_of_exhausted hk] at he
  | false =>
    rw [remaining_eq hk, Direction.mem_orient] at he
    exact ⟨rfl, (List.mem_filter.mp he).2⟩

/-- Whatever is stored, and whatever is passed over, a cursor is ready after a call. -/
theorem ready_advance (p : Entry α → Bool) (h : Histogram α) (k : Cursor α) :
    (k.advance p h).2.Ready := by
  unfold advance
  split
  next e hfind => exact ready_last (admits_of_mem_remaining (List.mem_of_find?_eq_some hfind)).2
  next => exact ready_of_exhausted rfl

/-- The look-up of a ready cursor gives a result, from which the call takes its answer. -/
theorem Ready.next? {k : Cursor α} (hk : k.Ready) (h : Histogram α) :
    k.next? h = some (k.next h) := by
  unfold Cursor.next?
  cases hex : k.exhausted with
  | true => rw [if_pos rfl, next_of_exhausted hex]
  | false =>
    rw [if_neg (by simp), Histogram.lookUp?, hk hex, if_neg (by simp), Option.map_some]
    have hfirst : (k.remaining h).head? = k.direction.extreme? (h.entries.filter fun e =>
        k.window.contains k.comparator.compare e.element) := by
      rw [remaining_eq hex, Direction.head?_orient]
      rfl
    cases hrem : k.remaining h with
    | nil =>
      rw [hrem] at hfirst
      rw [next_of_nil hrem, ← hfirst]
      rfl
    | cons e es =>
      rw [hrem] at hfirst
      rw [next_of_cons hrem, ← hfirst, List.head?_cons, hex]

/-- So does every later one, whatever is stored meanwhile. -/
theorem Ready.answers? {k : Cursor α} (hk : k.Ready) (hs : List (Histogram α)) :
    k.answers? hs = some (k.answers hs) := by
  induction hs generalizing k with
  | nil => rfl
  | cons h hs ih =>
    have hrest : (k.next h).2.answers? hs = some ((k.next h).2.answers hs) :=
      ih (ready_advance _ h k)
    rw [Cursor.answers?, hk.next? h]
    simp only [Option.bind_eq_bind, Option.bind_some, hrest]
    rfl

theorem Ready.lookups {k : Cursor α} (hk : k.Ready) {hs : List (Histogram α)} {w : Window α}
    (hw : w ∈ k.lookups hs) : w.isRefused k.comparator.compare = false := by
  induction hs generalizing k with
  | nil => cases hw
  | cons h hs ih =>
    rcases List.mem_append.mp hw with hw | hw
    · cases hex : k.exhausted with
      | true => simp [hex] at hw
      | false =>
        simp only [hex, Bool.false_eq_true, if_false, List.mem_singleton] at hw
        rw [hw]
        exact hk hex
    · have hcomparator : (k.next h).2.comparator = k.comparator := by
        unfold next advance
        split <;> rfl
      rw [← hcomparator]
      exact ih (ready_advance _ h k) hw

/-- Without the question that a cursor asks at the beginning, crossed endpoints would be refused. -/
example : (⟨⟨0, .natural, false⟩, ⟨some ⟨3, .inclusive⟩, some ⟨1, .inclusive⟩⟩, .ascending, none,
    false⟩ : Cursor Int).next? .empty = none := rfl

/-- No look-up of a cursor is refused, over whatever interval and in whatever direction it was set,
and whatever is stored at each call. -/
theorem answers?_begin (c : Comparator α) (r : Interval α) (d : Direction)
    (hs : List (Histogram α)) :
    (begin c r d).answers? hs = some ((begin c r d).answers hs) ∧
      ∀ w ∈ (begin c r d).lookups hs, w.isRefused c.compare = false :=
  ⟨(ready_begin c r d).answers? hs, fun _ hw => (ready_begin c r d).lookups hw⟩

end Cursor

/-! ## Open iterators -/

/-- The next look-up of the cursor on which a feed draws, if any, is not refused. -/
def Feed.Ready : Feed α → Prop
  | live _ k => k.Ready
  | copied _ => True

/-- Whatever is stored, and whatever is passed over, a feed is ready after a step. -/
theorem Feed.ready_advance (p : Entry α → Bool) (contents : BagId → Histogram α) (f : Feed α) :
    (f.advance p contents).2.Ready := by
  cases f with
  | live b k => exact Cursor.ready_advance p (contents b) k
  | copied es =>
    unfold advance
    simp only
    cases es.dropWhile fun e => !p e <;> trivial

namespace Traversal

/-- A step asks the feed once, unless the gate is closed. -/
theorem feed_next (contents : BagId → Histogram α) (t : Traversal α) :
    (t.next contents).2.feed = t.feed ∨
      ∃ p, (t.next contents).2.feed = (t.feed.advance p contents).2 := by
  cases t with
  | direct f => exact .inr ⟨_, rfl⟩
  | gated g f =>
    obtain ⟨c, r, entered, closed⟩ := g
    cases closed with
    | true => exact .inl rfl
    | false =>
      refine .inr ⟨fun e => entered || !r.tooLow c e.element, ?_⟩
      simp only [next, feed, Bool.false_eq_true, if_false]
      generalize f.advance (fun e => entered || !r.tooLow c e.element) contents = step
      obtain ⟨found, f'⟩ := step
      cases found with
      | none => rfl
      | some e => cases hh : r.tooHigh c e.element <;> simp [hh]

theorem ready_next {t : Traversal α} (ht : t.feed.Ready) (contents : BagId → Histogram α) :
    (t.next contents).2.feed.Ready := by
  rcases t.feed_next contents with h | ⟨p, h⟩
  · rw [h]
    exact ht
  · rw [h]
    exact t.feed.ready_advance p contents

end Traversal

namespace Walk

/-- Where the items of an iterator come from. -/
def feed : Walk α → Feed α
  | entries t | elements t => t.feed
  | occurrences o => o.entries.feed

theorem ready_next {w : Walk α} (hw : w.feed.Ready) (contents : BagId → Histogram α) :
    (w.next contents).2.feed.Ready := by
  cases w with
  | entries t => exact Traversal.ready_next (t := t) hw contents
  | elements t => exact Traversal.ready_next (t := t) hw contents
  | occurrences o =>
    obtain ⟨t, current⟩ := o
    have ht := Traversal.ready_next (t := t) hw contents
    show (Occurrences.next contents ⟨t, current⟩).2.entries.feed.Ready
    unfold Occurrences.next
    split
    next => exact hw
    next =>
      split
      next hstep => simp only at hstep; rw [hstep] at ht; exact ht
      next hstep => simp only at hstep; rw [hstep] at ht; exact ht

theorem ready_nexts {w : Walk α} (hw : w.feed.Ready) (contents : BagId → Histogram α) (n : Nat) :
    (w.nexts contents n).2.feed.Ready := by
  induction n generalizing w with
  | zero => exact hw
  | succ n ih => exact ih (ready_next hw contents)

end Walk

/-! ## Opening iterators -/

theorem Source.ready_feed (contents : BagId → Histogram α) (s : Source α) :
    (s.feed contents).Ready := by
  unfold feed
  cases s.access with
  | indexed => exact Cursor.ready_begin _ _ _
  | sequential => exact Cursor.ready_begin _ _ _
  | copying => trivial
  | detached => trivial

theorem Source.ready_scanWithin (contents : BagId → Histogram α) (s : Source α) (d : Direction)
    (r : Interval α) : (s.scanWithin contents d r).feed.Ready := by
  have hfeed := s.ready_feed contents
  unfold scanWithin
  cases s.access with
  | indexed => exact Cursor.ready_begin _ _ _
  | _ =>
    cases d with
    | ascending => exact hfeed
    | descending => trivial

theorem Source.ready_scan (contents : BagId → Histogram α) (s : Source α) (d : Direction) :
    (s.scan contents d).feed.Ready := by
  cases d with
  | ascending => exact s.ready_feed contents
  | descending => exact s.ready_scanWithin contents .descending .all

namespace View

theorem ready_scan {reg : Registry α} {v : View α} {d : Direction} {t : Traversal α}
    (h : v.scan reg d = .ok t) : t.feed.Ready := by
  induction v generalizing d with
  | source s => exact Except.ok.inj h ▸ s.ready_scan reg.contents d
  | range n s r => exact Except.ok.inj h ▸ s.ready_scanWithin reg.contents d r
  | descending n link f ih =>
    unfold scan at h
    cases hfollow : reg.follow link f with
    | error e => rw [hfollow] at h; cases h
    | ok _ => rw [hfollow] at h; exact ih h

theorem ready_scanWithin {reg : Registry α} {v : View α} {d : Direction} {q : Interval α}
    {t : Traversal α} (h : v.scanWithin reg d q = .ok t) : t.feed.Ready := by
  induction v generalizing d q with
  | source s => exact Except.ok.inj h ▸ s.ready_scanWithin reg.contents d q
  | range n s r => exact Except.ok.inj h ▸ s.ready_scanWithin reg.contents d _
  | descending n link f ih =>
    unfold scanWithin at h
    cases hfollow : reg.follow link f with
    | error e => rw [hfollow] at h; cases h
    | ok _ => rw [hfollow] at h; exact ih h

end View

/-- A visit can be described for every interval, crossed ones included. -/
theorem Visit.exists_covers (c : Comparator α) (r : Interval α) (d : Direction) :
    ∃ visit : Visit α, visit.Covers c r d := by
  obtain ⟨lower, upper⟩ := r
  refine ⟨.within d (.intersect (lower.elim .all .downTo) (upper.elim .all .upTo)), rfl, ?_⟩
  cases lower <;> cases upper <;> rfl

/-! ## What commands leave in the table -/

section

variable {β γ : Type}

theorem Action.promises_reading {f : Registry α → Except Failure β} {P : β → Prop}
    (h : ∀ reg b, f reg = .ok b → P b) : (reading f).Promises P := by
  intro reg b hb
  rw [perform_reading] at hb
  exact h reg b hb

/-- The second part of an action may count on what the first one promises. -/
theorem Action.Promises.andThen {P : γ → Prop} {Q : β → Prop} {a : Action α β}
    {f : β → Action α γ} (ha : a.Promises Q) (h : ∀ b, Q b → (f b).Promises P) :
    (a >>= f).Promises P := by
  intro reg x hx
  rw [perform_bind] at hx
  rcases hp : a.perform reg with ⟨_ | b, reg'⟩
  · rw [hp] at hx
    cases hx
  · rw [hp] at hx
    exact h b (ha reg b (by rw [hp])) reg' x hx

end

/-- A new iterator is ready. -/
theorem Visit.run_ready (v : View α) (visit : Visit α) :
    (visit.run v).Promises fun w => w.feed.Ready := by
  cases visit with
  | entries d =>
    exact (promises_reading fun _ _ h => View.ready_scan h).andThen fun t ht => promises_pure ht
  | within d q =>
    refine Promises.andThen (Q := fun t => t.feed.Ready) ?_ fun t ht => promises_pure ht
    exact .bind fun c => .bind fun r => promises_reading fun _ _ h => View.ready_scanWithin h
  | occurrences =>
    refine (promises_reading (P := fun o => o.entries.feed.Ready) fun reg o h => ?_).andThen
      fun o ho => promises_pure ho
    unfold View.occurrences at h
    cases hscan : v.scan reg .ascending with
    | error e => rw [hscan] at h; cases h
    | ok t =>
      rw [hscan] at h
      obtain rfl : Occurrences.begin t = o := Except.ok.inj h
      exact View.ready_scan hscan

/-- If the handle is an iterator, it is ready. -/
def Handle.Ready : Handle α → Prop
  | walk w => w.feed.Ready
  | bag _ | elements _ | entries _ | weak _ | comparator _ => True

theorem ElementSet.scan_ready (s : ElementSet α) : s.scan.Promises fun t => t.feed.Ready :=
  .bind fun _ => promises_reading fun _ _ h => View.ready_scan h

theorem EntrySet.scan_ready (s : EntrySet α) : s.scan.Promises fun t => t.feed.Ready :=
  .bind fun _ => promises_reading fun _ _ h => View.ready_scan h

theorem Making.run_ready [Ord α] [TransOrd α] (t : Table α) (m : Making α) :
    (m.run t).Promises Handle.Ready := by
  cases m with
  | source a sorting => exact .bind fun c => .bind fun s => promises_pure trivial
  | ofElements xs => exact .bind fun s => .bind fun _ => promises_pure trivial
  | ofEntries es => exact .bind fun s => .bind fun _ => promises_pure trivial
  | copyEntries name =>
    exact .bind fun v => .bind fun es => .bind fun s => .bind fun _ => promises_pure trivial
  | copyElements name =>
    exact .bind fun v => .bind fun w => .bind fun s => .bind fun _ => promises_pure trivial
  | comparator o => exact .bind fun c => promises_pure trivial
  | weak name => exact .bind fun v => promises_pure trivial
  | walk name visit =>
    exact .bind fun v => (visit.run_ready v).andThen fun w hw => promises_pure hw
  | walkElements name d =>
    refine .bind fun s => Promises.andThen (Q := fun t => t.feed.Ready) ?_ fun w hw =>
      promises_pure hw
    cases d with
    | ascending => exact s.scan_ready
    | descending => exact .bind fun u => u.scan_ready
  | walkEntries name => exact .bind fun s => s.scan_ready.andThen fun w hw => promises_pure hw
  | view name step => exact .bind fun v => .bind fun w => .bind fun w => promises_pure trivial
  | comparatorOf name => exact .bind fun v => .bind fun c => promises_pure trivial
  | elementSet name => exact .bind fun v => .bind fun u => promises_pure trivial
  | entrySet name => exact .bind fun v => .bind fun u => promises_pure trivial
  | elements name step => exact .bind fun u => .bind fun w => .bind fun w => promises_pure trivial
  | bagOfElements name => exact .bind fun u => .bind fun v => .bind fun w => promises_pure trivial
  | comparatorOfElements name => exact .bind fun u => .bind fun c => promises_pure trivial
  | bagOfEntries name => exact .bind fun u => .bind fun v => .bind fun w => promises_pure trivial
  | reversedComparator name => exact .bind fun c => promises_pure trivial

namespace Table

/-- Every iterator of the table is ready. -/
def Ready (t : Table α) : Prop :=
  ∀ entry ∈ t, entry.2.Ready

variable {t : Table α}

theorem Ready.erase (ht : t.Ready) (name : String) : (t.erase name).Ready :=
  fun entry he => ht entry (List.mem_filter.mp he).1

theorem Ready.bind (ht : t.Ready) {h : Handle α} (hh : h.Ready) (name : String) :
    (t.bind name h).Ready := by
  intro entry he
  rcases List.mem_cons.mp he with rfl | he
  · exact hh
  · exact ht.erase name entry he

theorem Ready.walk (ht : t.Ready) (name : String) :
    (t.walk name).Promises fun w => w.feed.Ready := by
  intro reg w hw
  rw [Table.walk, perform_expect] at hw
  cases hfind : t.find? name with
  | none => rw [hfind] at hw; cases hw
  | some h =>
    rw [hfind] at hw
    cases h with
    | walk w' =>
      obtain rfl : w' = w := Except.ok.inj hw
      exact ht _ (mem_of_find? hfind)
    | _ => cases hw

end Table

theorem Command.run_ready [Ord α] [TransOrd α] [Shown α] {t : Table α} (ht : t.Ready)
    (cmd : Command α) : (cmd.run t).Promises fun p => p.2.Ready := by
  have hsame (a : Answer α) : (pure (a, t) : Action α (Answer α × Table α)).Promises fun p =>
      p.2.Ready := promises_pure ht
  cases cmd with
  | bind name making =>
    exact (making.run_ready t).andThen fun h hh => promises_pure (ht.bind hh name)
  | drop name => exact promises_pure (ht.erase name)
  | next name n =>
    refine (ht.walk name).andThen fun w hw => .bind fun reg => promises_pure ?_
    exact ht.bind (h := .walk (w.nexts reg.contents n).2) (Walk.ready_nexts hw reg.contents n) name
  | isAlive target => exact .bind fun v => .bind fun reg => hsame _
  | same first second => exact .bind fun b => hsame _
  | change target ch => exact .bind fun s => .bind fun a => hsame a
  | askBag target q => exact .bind fun v => .bind fun a => hsame a
  | askElements target q => exact .bind fun u => .bind fun a => hsame a
  | askEntries target q => exact .bind fun u => .bind fun a => hsame a
  | askComparator target q => exact .bind fun k => .bind fun a => hsame a

namespace Session

variable [Ord α] [TransOrd α] [Shown α] {s : Session α} {b : Source α} {name : String}
  {calls : List (Call α)}

/-- In every reachable session the next look-up of every open iterator is not refused, however it
was opened. -/
theorem Reachable.ready (h : s.Reachable) : s.table.Ready := by
  induction h with
  | initial => exact fun _ he => absurd he List.not_mem_nil
  | @next s hs c hc watched ih =>
    cases hp : (c.run s.table).perform s.fresh with
    | mk o reg =>
      cases o with
      | error e =>
        rw [(step_of_error watched hp).2]
        exact ih
      | ok p =>
        obtain ⟨answer, t⟩ := p
        rw [(step_of_ok watched hp).2]
        exact Command.run_ready ih c s.fresh (answer, t) (by rw [hp])

/-- No look-up of an iterator over an indexed source is refused, in any call up to now and in any
call from now on: the calls answer what the look-ups give. -/
theorem visits_lookups (h : Visits b r d name s calls) (ha : b.access = .indexed) (n : Nat)
    (watched : List String) :
    ∃ answers : List (Option (Entry α)),
      (s.step watched (.next name n)).1.outcome =
        .ok (.items (answers.map (Option.map .entry))) ∧
      (Cursor.begin b.comparator r d).answers?
          (calls.map Call.stored ++ .replicate n (s.registry.contents b.bag)) =
        some (calls.map Call.answer ++ answers) ∧
      ∀ w ∈ (Cursor.begin b.comparator r d).lookups
          (calls.map Call.stored ++ .replicate n (s.registry.contents b.bag)),
        w.isRefused b.comparator.compare = false := by
  obtain ⟨-, hname, hanswers, -⟩ := h.cursor ha
  obtain ⟨hanswers?, hlookups⟩ := Cursor.answers?_begin b.comparator r d
    (calls.map Call.stored ++ .replicate n (s.registry.contents b.bag))
  refine ⟨_, (step_next hname n watched).1, ?_, hlookups⟩
  rw [hanswers?, Cursor.answers_append, hanswers]

theorem visits_lookups_threeExtended :
    ∃ (b : Source Int) (calls : List (Call Int)) (answers : List (Option (Entry Int))),
      Visits b (.upTo ⟨4, .inclusive⟩) .ascending "i" threeExtended calls ∧
        calls.map Call.answer = [some ⟨1, 1⟩] ∧
        (threeExtended.step [] (.next "i" 3)).1.outcome =
          .ok (.items (answers.map (Option.map .entry))) ∧
        (Cursor.begin b.comparator (.upTo ⟨4, .inclusive⟩) .ascending).answers?
            (calls.map Call.stored ++ .replicate 3 (threeExtended.registry.contents b.bag)) =
          some (some ⟨1, 1⟩ :: answers) := by
  let b : Source Int := ⟨0, 0, ⟨0, .natural, false⟩, .indexed⟩
  let upTo : Visit Int := .within .ascending (.upTo ⟨4, .inclusive⟩)
  have hcovers : upTo.Covers b.comparator (.upTo ⟨4, .inclusive⟩) .ascending := ⟨rfl, rfl⟩
  have hopened : Visits b _ .ascending "i" threeVisited [] :=
    .opened threeNumbers_reachable rfl hcovers []
  have hone : (threeVisited.step [] (.next "i" 1)).1.outcome =
      .ok (.items ([some ⟨1, 1⟩].map (Option.map .entry))) := rfl
  have hvisits := (hopened.asked hone).later (c := .change "s" (.insert 4)) trivial nofun []
  obtain ⟨answers, houtcome, hanswers, -⟩ := visits_lookups hvisits rfl 3 []
  exact ⟨b, _, answers, hvisits, rfl, houtcome, hanswers⟩

end Session

end OrderedBag
