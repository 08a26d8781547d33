import OrderedBag.Proofs.Navigation

/-!
# Walking from neighbour to neighbour

Who starts at one end of a set and asks again and again for the neighbour of the element that came
last meets every element once, in order, and then none. Between the questions anything may happen
as long as the set can be asked and its bag shows the same entries. Going to a neighbour and back
leads to the element where one came from.

* `Session.Rests` — a set that shows the same entries as before
* `Session.Offers.reads_next` — one stride leads to the next element of the list
* `Session.Offers.strides` — and so does any number of them, up to the end of the list
* `Session.neighbours_enumerate` — whole walks in both directions, and back again
-/

namespace OrderedBag

variable {α : Type}

/-- The question for the neighbour of an element in a direction. -/
def ElementQuery.beyond : Direction → α → ElementQuery α
  | .ascending, x => .higher x
  | .descending, x => .lower x

namespace Session

variable [Ord α] [Std.TransOrd α] [Shown α] {s t : Session α} {set : String} {u : ElementSet α}

/-! ## Sets at rest -/

/-- Whatever has happened in the meantime, the set can still be asked, and its bag shows the entries
that it showed before. -/
structure Rests (s : Session α) (set : String) (u : ElementSet α) (t : Session α) : Prop where
  reachable : t.Reachable
  offers : t.Offers set u
  listing : u.view.listing t.registry.contents = u.view.listing s.registry.contents

theorem Rests.members (h : s.Rests set u t) :
    u.members t.registry.contents = u.members s.registry.contents :=
  congrArg (List.map Entry.element) h.listing

/-- A set is at rest while questions are asked. -/
theorem Offers.rests (h : s.Offers set u) (hs : s.Reachable) {c : Command α} (hc : c.Valid)
    {answer : Answer α} (hreads : s.Reads c answer) (watched : List String) :
    s.Rests set u (s.step watched c).2 := by
  obtain ⟨-, htable, hcontents⟩ := hreads watched
  have hspares := hs.spares hc watched fun i hi => htable ▸ hi
  exact ⟨hs.next hc watched, ⟨htable ▸ h.named, Registry.canReach_of_spares h.reach hspares,
    h.attached⟩, by rw [hcontents]⟩

/-! ## One stride -/

/-- The neighbour in a direction is the first element of the list in that direction which comes
after the given one. -/
theorem Offers.reads_beyond (h : s.Offers set u) (hs : s.Sound) (d : Direction) (x : α) :
    s.Reads (.askElements set (.beyond d x)) (.maybeElement
      ((d.orient (u.members s.registry.contents)).find? fun y =>
        ((u.view.order.towards d).compare y x).isGT)) := by
  cases d with
  | ascending => exact h.reads_higher hs x
  | descending =>
    simp only [Comparator.towards, Comparator.compare_reversed, Ordering.isGT_swap]
    exact h.reads_lower hs x

/-- The neighbour of an element of the set is the next one in the list. -/
theorem Offers.reads_next (h : s.Offers set u) (hs : s.Sound) {d : Direction} {x : α}
    {before after : List α}
    (hl : d.orient (u.members s.registry.contents) = before ++ x :: after) :
    s.Reads (.askElements set (.beyond d x)) (.maybeElement after.head?) := by
  have hsorted := Comparator.pairwise_towards (h.pairwise_members hs) d
  have hread := h.reads_beyond hs d x
  rw [hl] at hsorted hread
  rwa [Comparator.find?_next hsorted] at hread

/-! ## Walks -/

/-- From the element `x` on, every neighbour is asked for the next one while the set is at rest: so
the elements of the list are met, and then none. -/
inductive Strides (set : String) (u : ElementSet α) (d : Direction) :
    Session α → α → List α → Prop
  | stop {s : Session α} {x : α}
      (h : s.Reads (.askElements set (.beyond d x)) (.maybeElement none)) : Strides set u d s x []
  | stride {s : Session α} {x y : α} {l : List α}
      (h : s.Reads (.askElements set (.beyond d x)) (.maybeElement (some y)))
      (hnext : ∀ t, s.Rests set u t → Strides set u d t y l) : Strides set u d s x (y :: l)

/-- A walk from one end of the set meets the elements of the list, if there are any. -/
def Walks (s : Session α) (set : String) (u : ElementSet α) (d : Direction) : List α → Prop
  | [] => s.Declines (.askElements set (.extreme d)) .noSuchElement
  | x :: l => s.Reads (.askElements set (.extreme d)) (.element x) ∧
      ∀ t, s.Rests set u t → Strides set u d t x l

/-- From any element of the set, the strides lead through the rest of the list. -/
theorem Offers.strides (h : s.Offers set u) (hs : s.Reachable) {d : Direction} {x : α}
    {before after : List α}
    (hl : d.orient (u.members s.registry.contents) = before ++ x :: after) :
    Strides set u d s x after := by
  induction after generalizing s before x with
  | nil => exact .stop (h.reads_next hs.sound hl)
  | cons y after ih =>
    refine .stride (h.reads_next hs.sound hl) fun t ht => ?_
    -- what was ahead of `x` is now behind `y`
    have hl' : d.orient (u.members t.registry.contents) = (before ++ [x]) ++ y :: after := by
      rw [ht.members, hl, List.append_assoc]
      rfl
    exact ih ht.offers ht.reachable hl'

theorem Offers.walks (h : s.Offers set u) (hs : s.Reachable) (d : Direction) :
    s.Walks set u d (d.orient (u.members s.registry.contents)) := by
  cases hl : d.orient (u.members s.registry.contents) with
  | nil =>
    refine h.declines_extreme hs.sound d ?_
    rw [← Direction.orient_orient d (u.members _), hl]
    cases d <;> rfl
  | cons x l =>
    refine ⟨h.reads_extreme hs.sound ?_, fun t ht => ?_⟩
    · rw [← Direction.head?_orient, hl]
      rfl
    · have hl' : d.orient (u.members t.registry.contents) = [] ++ x :: l := by
        rw [ht.members, hl]
        rfl
      exact ht.offers.strides ht.reachable hl'

/-- Back from its neighbour, an element of the set is met again. -/
theorem Offers.reads_back (h : s.Offers set u) (hs : s.Sound) {d : Direction} {x y : α}
    (hx : x ∈ u.members s.registry.contents)
    (hread : s.Reads (.askElements set (.beyond d x)) (.maybeElement (some y)))
    (ht : s.Rests set u t) :
    t.Reads (.askElements set (.beyond d.flip y)) (.maybeElement (some x)) := by
  obtain ⟨before, after, hl⟩ := List.append_of_mem (Direction.mem_orient (d := d).mpr hx)
  have hhead : some y = after.head? := by
    have hsame := (hread []).1.symm.trans (h.reads_next hs hl []).1
    exact Answer.maybeElement.inj (Except.ok.inj hsame)
  obtain ⟨after, rfl⟩ := List.head?_eq_some_iff.mp hhead.symm
  have hback : d.flip.orient (u.members t.registry.contents) =
      after.reverse ++ y :: (x :: before.reverse) := by
    rw [ht.members, Direction.orient_flip, hl]
    simp
  exact ht.offers.reads_next ht.reachable.sound hback

/-- A walk upwards from the first element of a set, and a walk downwards from the last one, meet
the listed elements one by one, in order and in reverse, and nothing after as many strides as the
set has elements; no two of them compare equal. A question leaves the set at rest. From the
neighbour before an element of the set, the neighbour after it is that element again, and so it is
the other way around. -/
theorem neighbours_enumerate (hs : s.Reachable) (hset : s.table.find? set = some (.elements u))
    (hreach : s.registry.canReach u.view = true) (hatt : u.view.root.access ≠ .detached) :
    ∃ (c : Comparator α) (l : List α),
      s.HandsOut (.comparatorOfElements set) c ∧
      s.Reads (.askElements set (.elements .ascending)) (.elements l) ∧
      s.Reads (.askElements set (.elements .descending)) (.elements l.reverse) ∧
      s.Reads (.askElements set .size) (.number l.length) ∧
      (l.Pairwise fun a b => c.compare a b = .lt) ∧
      s.Walks set u .ascending l ∧
      s.Walks set u .descending l.reverse ∧
      (∀ q answer, s.Reads (.askElements set q) answer → ∀ watched,
        s.Rests set u (s.step watched (.askElements set q)).2) ∧
      ∀ x ∈ l, ∀ y, ∀ t, s.Rests set u t →
        (s.Reads (.askElements set (.lower x)) (.maybeElement (some y)) →
          t.Reads (.askElements set (.higher y)) (.maybeElement (some x))) ∧
        (s.Reads (.askElements set (.higher x)) (.maybeElement (some y)) →
          t.Reads (.askElements set (.lower y)) (.maybeElement (some x))) := by
  have h : s.Offers set u := ⟨hset, hreach, hatt⟩
  refine ⟨u.view.order, u.members s.registry.contents, h.handsOut hs.sound,
    h.reads_elements hs.sound .ascending, h.reads_elements hs.sound .descending,
    h.reads_size hs.sound, h.pairwise_members hs.sound, h.walks hs .ascending,
    h.walks hs .descending, fun q answer hreads => h.rests hs trivial hreads,
    fun x hx y t ht => ⟨fun hlower => ?_, fun hhigher => ?_⟩⟩
  · exact h.reads_back hs.sound (d := .descending) hx hlower ht
  · exact h.reads_back hs.sound (d := .ascending) hx hhigher ht

/-- A walk through the set of five, three and one on the way down. Five comes before three, and
after that was asked, three still comes after five. -/
theorem neighbours_enumerate_threeDescending :
    ∃ u, threeDescending.table.find? "e" = some (.elements u) ∧
      threeDescending.Walks "e" u .ascending [5, 3, 1] ∧
      threeDescending.Walks "e" u .descending [1, 3, 5] ∧
      (threeDescending.step [] (.askElements "e" (.lower 3))).2.Reads
        (.askElements "e" (.higher 5)) (.maybeElement (some 3)) := by
  let b : Source Int := ⟨0, 0, ⟨0, .natural, false⟩, .indexed⟩
  let u : ElementSet Int := ⟨.weak, .descending (some 1) .weak (.source b)⟩
  have hu : threeDescending.table.find? "e" = some (.elements u) := rfl
  obtain ⟨c, l, -, hlist, -, -, -, hup, hdown, hrests, hback⟩ :=
    neighbours_enumerate threeDescending_reachable hu rfl (by decide)
  have hl : Except.ok (Answer.elements [5, 3, 1]) = Except.ok (.elements l) := (hlist []).1
  obtain rfl : [5, 3, 1] = l := Answer.elements.inj (Except.ok.inj hl)
  have hoffers : threeDescending.Offers "e" u := ⟨hu, rfl, by decide⟩
  have hlower : threeDescending.Reads (.askElements "e" (.lower 3)) (.maybeElement (some 5)) :=
    hoffers.reads_lower threeDescending_reachable.sound 3
  exact ⟨u, hu, hup, hdown, (hback 3 (by simp) 5 _ (hrests _ _ hlower [])).1 hlower⟩

end Session

end OrderedBag
