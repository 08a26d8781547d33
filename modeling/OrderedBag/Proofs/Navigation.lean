import OrderedBag.Proofs.SetReadings

/-!
# Navigation

A set looks for the element nearest to a given one by making a view of all that lies on one side and
asking that view for its first or last entry. Whether the element is stored, and whether it lies
inside of the set's own bounds, makes no difference: the answer is the first or the last element of
the set that stands so to it in the order of the set.

* `Interval.contains_upTo`, `Interval.contains_downTo` — one side of an element, by comparison
* `Comparator.find?_of_eq`, `Comparator.find?_next` — what is found in a sorted list
* `Session.Offers.reads_lower`, `reads_floor`, `reads_ceiling`, `reads_higher` — the four questions
* `Session.nearest_elements` — all four, for a set and for its descending set
-/

namespace OrderedBag

variable {α : Type}

/-! ## One side of an element -/

namespace Interval

theorem contains_upTo (c : Comparator α) (hi : Endpoint α) (x : α) :
    (upTo hi).contains c x =
      if hi.edge = .inclusive then (c.compare x hi.element).isLE
      else (c.compare x hi.element).isLT := by
  obtain ⟨y, edge⟩ := hi
  simp only [upTo, contains, tooLow, tooHigh]
  cases edge <;> cases c.compare x y <;> simp

theorem contains_downTo (c : Comparator α) (lo : Endpoint α) (x : α) :
    (downTo lo).contains c x =
      if lo.edge = .inclusive then (c.compare x lo.element).isGE
      else (c.compare x lo.element).isGT := by
  obtain ⟨y, edge⟩ := lo
  simp only [downTo, contains, tooLow, tooHigh]
  cases edge <;> cases c.compare x y <;> simp

/-- Between two endpoints lies what lies after the one and before the other. -/
theorem contains_both (c : Comparator α) (lo hi : Endpoint α) (x : α) :
    (⟨some lo, some hi⟩ : Interval α).contains c x =
      ((downTo lo).contains c x && (upTo hi).contains c x) := by
  simp only [contains, tooLow, tooHigh, downTo, upTo, Bool.not_false, Bool.and_true, Bool.true_and]

end Interval

/-! ## The nearest elements of a sorted list -/

namespace Comparator

variable {c : Comparator α} {l : List α}

/-- The last entry before an endpoint holds the last element there. -/
theorem lastBefore_eq (c : Comparator α) (es : List (Entry α)) (hi : Endpoint α) :
    c.lastBefore es hi =
      (es.map Entry.element).reverse.find? fun y => (Interval.upTo hi).contains c y := by
  rw [lastBefore, Direction.extreme?, List.getLast?_eq_head?_reverse, ← List.filter_reverse,
    List.head?_filter, ← List.map_reverse, List.find?_map]
  rfl

/-- The first entry after an endpoint holds the first element there. -/
theorem firstAfter_eq (c : Comparator α) (es : List (Entry α)) (lo : Endpoint α) :
    c.firstAfter es lo =
      (es.map Entry.element).find? fun y => (Interval.downTo lo).contains c y := by
  rw [firstAfter, Direction.extreme?, List.head?_filter, List.find?_map]
  rfl

/-- In a sorted list, an element that compares equal to `x` is the first one not ordered before. -/
theorem find?_of_eq (h : l.Pairwise fun a b => c.compare a b = .lt) {x y : α} (hy : y ∈ l)
    (heq : c.compare y x = .eq) : (l.find? fun z => (c.compare z x).isGE) = some y := by
  obtain ⟨before, after, rfl⟩ := List.append_of_mem hy
  refine List.find?_eq_some_iff_append.mpr ⟨by rw [heq]; rfl, before, after, rfl, fun z hz => ?_⟩
  have hzy : c.compare z y = .lt := (List.pairwise_append.mp h).2.2 z hz y List.mem_cons_self
  have hzx : c.compare z x = .lt := Std.TransCmp.lt_of_lt_of_eq hzy heq
  rw [hzx]
  rfl

/-- In a sorted list, the first element ordered after one of its own is the one that comes next. -/
theorem find?_next {x : α} {before after : List α}
    (h : (before ++ x :: after).Pairwise fun a b => c.compare a b = .lt) :
    ((before ++ x :: after).find? fun z => (c.compare z x).isGT) = after.head? := by
  obtain ⟨-, hafter, hbefore⟩ := List.pairwise_append.mp h
  have hnone : (before.find? fun z => (c.compare z x).isGT) = none := by
    refine List.find?_eq_none.mpr fun z hz => ?_
    rw [hbefore z hz x List.mem_cons_self]
    exact Bool.false_ne_true
  have hself : (c.compare x x).isGT = false := by
    rw [compare_self]
    rfl
  rw [List.find?_append, hnone, Option.none_or, List.find?_cons_of_neg (by simp [hself])]
  cases after with
  | nil => rfl
  | cons y after =>
    have hxy : c.compare x y = .lt := (List.pairwise_cons.mp hafter).1 y List.mem_cons_self
    exact List.find?_cons_of_pos (by rw [Std.OrientedCmp.gt_of_lt hxy]; rfl)

/-- A sorted list is sorted in either direction, by the order in that direction. -/
theorem pairwise_towards (h : l.Pairwise fun a b => c.compare a b = .lt) (d : Direction) :
    (d.orient l).Pairwise fun a b => (c.towards d).compare a b = .lt := by
  cases d with
  | ascending => exact h
  | descending =>
    refine List.pairwise_reverse.mpr (h.imp fun {a b} hab => ?_)
    rw [towards, reversed_compare]
    exact hab

end Comparator

/-! ## Asking a set -/

namespace Session

variable [Ord α] [Std.TransOrd α] [Shown α] {s : Session α} {set : String} {u : ElementSet α}

namespace Offers

variable (h : s.Offers set u) (hs : s.Sound)
include h hs

theorem reads_lower (x : α) :
    s.Reads (.askElements set (.lower x)) (.maybeElement
      ((u.members s.registry.contents).reverse.find? fun y =>
        (u.view.order.compare y x).isLT)) := by
  refine h.reads hs rfl ?_
  simp only [ElementQuery.answer, Comparator.lastBefore_eq, Interval.contains_upTo]
  rfl

theorem reads_floor (x : α) :
    s.Reads (.askElements set (.floor x)) (.maybeElement
      ((u.members s.registry.contents).reverse.find? fun y =>
        (u.view.order.compare y x).isLE)) := by
  refine h.reads hs rfl ?_
  simp only [ElementQuery.answer, Comparator.lastBefore_eq, Interval.contains_upTo]
  rfl

theorem reads_ceiling (x : α) :
    s.Reads (.askElements set (.ceiling x)) (.maybeElement
      ((u.members s.registry.contents).find? fun y => (u.view.order.compare y x).isGE)) := by
  refine h.reads hs rfl ?_
  simp only [ElementQuery.answer, Comparator.firstAfter_eq, Interval.contains_downTo]
  rfl

theorem reads_higher (x : α) :
    s.Reads (.askElements set (.higher x)) (.maybeElement
      ((u.members s.registry.contents).find? fun y => (u.view.order.compare y x).isGT)) := by
  refine h.reads hs rfl ?_
  simp only [ElementQuery.answer, Comparator.firstAfter_eq, Interval.contains_downTo]
  rfl

/-- An element that compares equal to the probe is both its floor and its ceiling. -/
theorem reads_of_eq {x y : α} (hy : y ∈ u.members s.registry.contents)
    (heq : u.view.order.compare y x = .eq) :
    s.Reads (.askElements set (.floor x)) (.maybeElement (some y)) ∧
      s.Reads (.askElements set (.ceiling x)) (.maybeElement (some y)) := by
  have hsorted := h.pairwise_members hs
  have hceiling := Comparator.find?_of_eq hsorted hy heq
  -- the floor is the ceiling of the reversed list
  have hturned : (u.view.order.towards .descending).compare y x = .eq := by
    rw [Comparator.towards, Comparator.compare_reversed, heq]
    rfl
  have hfloor := Comparator.find?_of_eq (Comparator.pairwise_towards hsorted .descending)
    (List.mem_reverse.mpr hy) hturned
  simp only [Comparator.towards, Comparator.compare_reversed, Ordering.isGE_swap] at hfloor
  refine ⟨?_, ?_⟩
  · rw [← hfloor]
    exact h.reads_floor hs x
  · rw [← hceiling]
    exact h.reads_ceiling hs x

end Offers

/-- Every set, however it was made, answers for every probe, stored or not: `lower` and `floor` the
last of its elements that the order of the set puts before the probe or, for `floor`, not after it,
`higher` and `ceiling` the first one after it or not before it, and none when there is no such
element. An element that compares equal to the probe is its floor and its ceiling. The descending
set has `floor` and `ceiling`, and `lower` and `higher`, exchanged. -/
theorem nearest_elements (hs : s.Reachable) (hset : s.table.find? set = some (.elements u))
    (hreach : s.registry.canReach u.view = true) (hatt : u.view.root.access ≠ .detached) :
    ∃ (c : Comparator α) (l : List α),
      s.HandsOut (.comparatorOfElements set) c ∧
      s.Reads (.askElements set (.elements .ascending)) (.elements l) ∧
      ∀ x,
        s.Reads (.askElements set (.lower x))
          (.maybeElement (l.reverse.find? fun y => (c.compare y x).isLT)) ∧
        s.Reads (.askElements set (.floor x))
          (.maybeElement (l.reverse.find? fun y => (c.compare y x).isLE)) ∧
        s.Reads (.askElements set (.ceiling x))
          (.maybeElement (l.find? fun y => (c.compare y x).isGE)) ∧
        s.Reads (.askElements set (.higher x))
          (.maybeElement (l.find? fun y => (c.compare y x).isGT)) ∧
        (∀ y ∈ l, c.compare y x = .eq →
          s.Reads (.askElements set (.floor x)) (.maybeElement (some y)) ∧
          s.Reads (.askElements set (.ceiling x)) (.maybeElement (some y))) ∧
        ∀ d, s.table.find? d = none → ∀ watched,
          (s.step watched (.bind d (.elements set .descending))).1.outcome = .ok .done ∧
          (s.step watched (.bind d (.elements set .descending))).2.Reads
            (.askElements d (.lower x)) (.maybeElement (l.find? fun y => (c.compare y x).isGT)) ∧
          (s.step watched (.bind d (.elements set .descending))).2.Reads
            (.askElements d (.floor x)) (.maybeElement (l.find? fun y => (c.compare y x).isGE)) ∧
          (s.step watched (.bind d (.elements set .descending))).2.Reads
            (.askElements d (.ceiling x))
            (.maybeElement (l.reverse.find? fun y => (c.compare y x).isLE)) ∧
          (s.step watched (.bind d (.elements set .descending))).2.Reads
            (.askElements d (.higher x))
            (.maybeElement (l.reverse.find? fun y => (c.compare y x).isLT)) := by
  have h : s.Offers set u := ⟨hset, hreach, hatt⟩
  refine ⟨u.view.order, u.members s.registry.contents, h.handsOut hs.sound,
    h.reads_elements hs.sound .ascending, fun x => ⟨h.reads_lower hs.sound x,
      h.reads_floor hs.sound x, h.reads_ceiling hs.sound x, h.reads_higher hs.sound x,
      fun y hy heq => h.reads_of_eq hs.sound hy heq, fun d hd watched => ?_⟩⟩
  obtain ⟨w, hdone, -, hw, hcontents, hleaves⟩ := h.derives hs .descending rfl hd watched
  have hafter := (hs.next (c := .bind d (.elements set .descending)) trivial watched).sound
  generalize (s.step watched (.bind d (.elements set .descending))).2 = t at *
  obtain ⟨-, horder, hlisting⟩ := View.leaves_reversed_iff.mp hleaves
  have hmembers : w.members t.registry.contents = (u.members s.registry.contents).reverse := by
    rw [ElementSet.members, hlisting, hcontents, List.map_reverse]
    rfl
  have hlower := hw.reads_lower hafter x
  have hfloor := hw.reads_floor hafter x
  have hceiling := hw.reads_ceiling hafter x
  have hhigher := hw.reads_higher hafter x
  simp only [hmembers, horder, Comparator.compare_reversed, List.reverse_reverse,
    Ordering.isLT_swap, Ordering.isLE_swap, Ordering.isGE_swap, Ordering.isGT_swap]
    at hlower hfloor hceiling hhigher
  exact ⟨hdone, hlower, hfloor, hceiling, hhigher⟩

/-- The set of five and three, on the way down, is asked for elements near one, which is stored but
not in the set, near three, and near four, which is not stored. -/
theorem nearest_elements_threeDescendingHead :
    threeDescendingHead.Reads (.askElements "h" (.lower 1)) (.maybeElement (some 3)) ∧
      threeDescendingHead.Reads (.askElements "h" (.ceiling 1)) (.maybeElement none) ∧
      threeDescendingHead.Reads (.askElements "h" (.floor 3)) (.maybeElement (some 3)) ∧
      threeDescendingHead.Reads (.askElements "h" (.higher 4)) (.maybeElement (some 3)) ∧
      (threeDescendingHead.step [] (.bind "r" (.elements "h" .descending))).2.Reads
        (.askElements "r" (.lower 4)) (.maybeElement (some 3)) := by
  let b : Source Int := ⟨0, 0, ⟨0, .natural, false⟩, .indexed⟩
  let v : View Int := .descending (some 4) .strong (.range (some 3) b (.downTo ⟨3, .inclusive⟩))
  have hu : threeDescendingHead.table.find? "h" = some (.elements ⟨.strong, v⟩) := rfl
  obtain ⟨c, l, hcomp, hlist, hnear⟩ :=
    nearest_elements threeDescendingHead_reachable hu rfl (by decide)
  have hc : some (Handle.comparator ⟨0, .natural, true⟩) = some (.comparator c) := (hcomp "c" []).2
  obtain rfl : ⟨0, .natural, true⟩ = c := Handle.comparator.inj (Option.some.inj hc)
  have hl : Except.ok (Answer.elements [5, 3]) = Except.ok (.elements l) := (hlist []).1
  obtain rfl : [5, 3] = l := Answer.elements.inj (Except.ok.inj hl)
  obtain ⟨hlower, -, hceiling, -⟩ := hnear 1
  obtain ⟨-, -, -, hhigher, -, hturned⟩ := hnear 4
  exact ⟨hlower, hceiling, ((hnear 3).2.2.2.2.1 3 (by simp) rfl).1, hhigher,
    (hturned "r" rfl []).2.1⟩

end Session

end OrderedBag
