import OrderedBag.Element
import OrderedBag.Proofs.Interval
import OrderedBag.Registry.Basic

/-!
# The laws of intervals

An interval is known by what it leaves out on either side. In an intersection either side leaves out
what one of the two intervals leaves out there, so intersecting obeys the laws of sets. The
endpoints themselves obey fewer: of two that compare equal and are both inclusive, the second one is
kept. Read backwards, an interval exchanges its sides, and an intersection keeps the very same
endpoints.

An interval without room contains nothing. One that has room contains the elements at its inclusive
endpoints. If the comparator is the order of the element type, the bounds of the interval admit what
the interval contains, each of them read on its own.

* `Interval.Alike` — two intervals that leave out the same elements on either side
* `Interval.intersection_laws` — what an intersection leaves out, and the laws that follow
* `Interval.reversal_duality` — an interval and a comparator that are reversed together
* `Interval.room_and_bounds` — what follows from room and the lack of it, and the reading by bounds
-/

namespace OrderedBag

open Std

variable {α : Type}

namespace Interval

/-! ## Intervals that leave out the same -/

/-- The comparator cannot tell the intervals apart: they leave out the same elements on either side,
and contain the same elements. -/
structure Alike (c : Comparator α) (r s : Interval α) : Prop where
  tooLow : ∀ x, r.tooLow c x = s.tooLow c x
  tooHigh : ∀ x, r.tooHigh c x = s.tooHigh c x
  contains : ∀ x, r.contains c x = s.contains c x

variable {c : Comparator α} {r s : Interval α}

/-- What is contained is decided by what is left out. -/
theorem Alike.of_sides (hlow : ∀ x, r.tooLow c x = s.tooLow c x)
    (hhigh : ∀ x, r.tooHigh c x = s.tooHigh c x) : r.Alike c s :=
  ⟨hlow, hhigh, fun x => by rw [Interval.contains, Interval.contains, hlow, hhigh]⟩

theorem intersect_comm (c : Comparator α) (r s : Interval α) :
    (r.intersect c s).Alike c (s.intersect c r) :=
  .of_sides (fun x => by rw [tooLow_intersect, tooLow_intersect, Bool.or_comm])
    (fun x => by rw [tooHigh_intersect, tooHigh_intersect, Bool.or_comm])

theorem intersect_assoc (c : Comparator α) (r s t : Interval α) :
    ((r.intersect c s).intersect c t).Alike c (r.intersect c (s.intersect c t)) :=
  .of_sides (fun x => by simp only [tooLow_intersect, Bool.or_assoc])
    (fun x => by simp only [tooHigh_intersect, Bool.or_assoc])

theorem intersect_self (c : Comparator α) (r : Interval α) : (r.intersect c r).Alike c r :=
  .of_sides (fun x => by rw [tooLow_intersect, Bool.or_self])
    (fun x => by rw [tooHigh_intersect, Bool.or_self])

/-- Nothing is in an intersection with an interval without room. -/
theorem contains_intersect_of_isEmpty (he : r.isEmpty c = true) (s : Interval α) (x : α) :
    (r.intersect c s).contains c x = false := by
  rw [contains_intersect, contains_eq_false_of_isEmpty he, Bool.false_and]

/-- An intersection leaves out on either side what one of the intervals leaves out there, and so it
contains what both of them contain. Intersecting is commutative, associative and idempotent, as far
as the comparator can tell; and nothing is in an intersection if one of the intervals has no room.
All this holds for crossed endpoints as well, and for endpoints that compare equal without being the
same. -/
theorem intersection_laws (c : Comparator α) :
    (∀ (r s : Interval α) (x : α),
      (r.intersect c s).tooLow c x = (r.tooLow c x || s.tooLow c x) ∧
      (r.intersect c s).tooHigh c x = (r.tooHigh c x || s.tooHigh c x) ∧
      (r.intersect c s).contains c x = (r.contains c x && s.contains c x)) ∧
    (∀ r s : Interval α, (r.intersect c s).Alike c (s.intersect c r)) ∧
    (∀ r s t : Interval α,
      ((r.intersect c s).intersect c t).Alike c (r.intersect c (s.intersect c t))) ∧
    (∀ r : Interval α, (r.intersect c r).Alike c r) ∧
    ∀ r s : Interval α, r.isEmpty c = true → ∀ x : α,
      (r.intersect c s).contains c x = false ∧ (s.intersect c r).contains c x = false := by
  refine ⟨fun r s x => ⟨tooLow_intersect c r s x, tooHigh_intersect c r s x,
    contains_intersect c r s x⟩, intersect_comm c, intersect_assoc c, intersect_self c, ?_⟩
  intro r s he x
  have hempty := contains_intersect_of_isEmpty he s x
  exact ⟨hempty, (intersect_comm c s r).contains x ▸ hempty⟩

/-- By absolute value alone, two and minus two compare equal. Which of them stays at the end of an
intersection depends on the order of the intervals; what it leaves out does not. -/
theorem intersection_laws_magnitude :
    let c : Comparator Int := ⟨0, .magnitudeOnly, false⟩
    let two : Interval Int := .upTo ⟨2, .inclusive⟩
    let minusTwo : Interval Int := .upTo ⟨-2, .inclusive⟩
    let crossed : Interval Int := ⟨some ⟨-5, .inclusive⟩, some ⟨2, .inclusive⟩⟩
    (two.intersect c minusTwo).upper.map Endpoint.element = some (-2) ∧
      (minusTwo.intersect c two).upper.map Endpoint.element = some 2 ∧
      (two.intersect c minusTwo).Alike c (minusTwo.intersect c two) ∧
      crossed.isEmpty c = true ∧ ∀ x, (two.intersect c crossed).contains c x = false := by
  intro c two minusTwo crossed
  obtain ⟨-, hcomm, -, -, hempty⟩ := intersection_laws c
  exact ⟨rfl, rfl, hcomm two minusTwo, rfl, fun x => (hempty crossed two rfl x).2⟩

/-! ## Reading backwards -/

/-- An interval has room from either side. -/
theorem isEmpty_reverse (c : Comparator α) (r : Interval α) :
    r.reverse.isEmpty c.reversed = r.isEmpty c := by
  obtain ⟨lo, hi⟩ := r
  cases lo with
  | none => cases hi <;> rfl
  | some p =>
    cases hi with
    | none => rfl
    | some q =>
      simp only [isEmpty, reverse, Comparator.reversed_compare]
      cases c.compare p.element q.element with
      | lt => rfl
      | eq => exact Bool.or_comm _ _
      | gt => rfl

/-- An interval that is read backwards by the reversed comparator leaves out on one side what it
left out on the other. It contains the same elements, and has room if it had. The reverse of an
intersection is the intersection of the reverses, with the very same endpoints, also where two of
them compare equal. -/
theorem reversal_duality (c : Comparator α) (r s : Interval α) :
    (∀ x : α,
      r.reverse.tooLow c.reversed x = r.tooHigh c x ∧
      r.reverse.tooHigh c.reversed x = r.tooLow c x ∧
      r.reverse.contains c.reversed x = r.contains c x) ∧
    r.reverse.isEmpty c.reversed = r.isEmpty c ∧
    (r.intersect c s).reverse = r.reverse.intersect c.reversed s.reverse :=
  ⟨fun x => ⟨tooLow_reverse c r x, tooHigh_reverse c r x, contains_reverse c r x⟩,
    isEmpty_reverse c r, reverse_intersect c r s⟩

/-! ## Room -/

/-- An element at the lower endpoint of an interval that has room is in the interval if the endpoint
is inclusive. -/
theorem contains_lower {p : Endpoint α} (he : r.isEmpty c = false) (hp : r.lower = some p)
    (hedge : p.edge = .inclusive) : r.contains c p.element = true := by
  obtain ⟨lo, hi⟩ := r
  obtain rfl : lo = some p := hp
  have hlow : (⟨some p, hi⟩ : Interval α).tooLow c p.element = false := by
    simp [tooLow, Comparator.compare_self, hedge]
  have hhigh : (⟨some p, hi⟩ : Interval α).tooHigh c p.element = false := by
    cases hi with
    | none => rfl
    | some q =>
      simp only [isEmpty, tooHigh] at he ⊢
      -- where the endpoints compare equal, there is room only if both are inclusive
      cases hpq : c.compare p.element q.element with
      | lt => rfl
      | eq => simp_all
      | gt => simp [hpq] at he
  rw [contains, hlow, hhigh]
  rfl

/-- The upper endpoint is the lower one of the reversed interval. -/
theorem contains_upper {p : Endpoint α} (he : r.isEmpty c = false) (hp : r.upper = some p)
    (hedge : p.edge = .inclusive) : r.contains c p.element = true := by
  rw [← isEmpty_reverse] at he
  rw [← contains_reverse]
  exact contains_lower he hp hedge

/-! ## The order of the element type -/

/-- A comparator that agrees with the order of the element type reads an interval as its bounds. -/
theorem contains_eq_window [Ord α] (hc : ∀ a b, c.compare a b = compare a b) (r : Interval α)
    (x : α) : r.contains c x = r.window.contains compare x := by
  have hcmp : c.compare = compare := funext fun a => funext fun b => hc a b
  rw [← contains_window, hcmp]

theorem compare_evaluate_natural [Ord α] [TransOrd α] (reg : Registry α) (a b : α) :
    (reg.evaluate .natural).1.compare a b = compare a b := rfl

/-- An interval without room contains nothing. An interval with room contains the element at each
endpoint that is inclusive. And where the comparator agrees with the order of the element type, as a
natural comparator does, an element is in the interval exactly if neither bound of it refuses the
element, each bound being read by that order and without regard to the other; crossed endpoints are
no exception. -/
theorem room_and_bounds (r : Interval α) :
    (∀ c : Comparator α,
      (r.isEmpty c = true → ∀ x, r.contains c x = false) ∧
      (r.isEmpty c = false → ∀ p : Endpoint α, r.lower = some p ∨ r.upper = some p →
        p.edge = .inclusive → r.contains c p.element = true) ∧
      ∀ [Ord α], (∀ a b, c.compare a b = compare a b) → ∀ x,
        r.contains c x = r.window.contains compare x) ∧
    ∀ [Ord α] [TransOrd α] (reg : Registry α) (x : α),
      r.contains (reg.evaluate .natural).1 x = r.window.contains compare x := by
  refine ⟨fun c => ⟨contains_eq_false_of_isEmpty, ?_, fun hc => contains_eq_window hc r⟩,
    fun reg => contains_eq_window (compare_evaluate_natural reg) r⟩
  rintro he p (hp | hp) hedge
  · exact contains_lower he hp hedge
  · exact contains_upper he hp hedge

/-- The natural order, exchanged and read backwards, is the natural order again. By it three lies
between three and itself, unless one of the endpoints is exclusive. -/
theorem room_and_bounds_threes :
    let c : Comparator Int := ⟨0, Order.natural.backward, true⟩
    let closed : Interval Int := ⟨some ⟨3, .inclusive⟩, some ⟨3, .inclusive⟩⟩
    let halfOpen : Interval Int := ⟨some ⟨3, .inclusive⟩, some ⟨3, .exclusive⟩⟩
    let crossed : Interval Int := ⟨some ⟨5, .inclusive⟩, some ⟨2, .exclusive⟩⟩
    closed.isEmpty c = false ∧ closed.contains c 3 = true ∧
      halfOpen.isEmpty c = true ∧ halfOpen.contains c 3 = false ∧
      (∀ a b, c.compare a b = compare a b) ∧
      ∀ x, crossed.contains c x = crossed.window.contains compare x ∧
        crossed.contains ((Registry.empty .wrapping).evaluate .natural).1 x =
          crossed.window.contains compare x := by
  intro c closed halfOpen crossed
  have hc (a b : Int) : c.compare a b = compare a b := OrientedCmp.eq_swap.symm
  obtain ⟨hany, hnatural⟩ := room_and_bounds crossed
  exact ⟨rfl, ((room_and_bounds closed).1 c).2.1 rfl _ (.inl rfl) rfl, rfl,
    ((room_and_bounds halfOpen).1 c).1 rfl 3, hc,
    fun x => ⟨(hany c).2.2 hc x, hnatural (.empty .wrapping) x⟩⟩

end Interval

end OrderedBag
