import OrderedBag.Window

/-!
# The algebra of intervals

Both sides of an interval follow one rule: an endpoint refuses what lies on its outer side, and the
upper endpoint is a lower endpoint for the reversed comparator. So every fact is shown for the lower
side, and reversing gives it for the upper one.

* `Interval.contains_intersect` — an intersection contains what both intervals contain
* `Interval.reverse_intersect` — reversal commutes with intersection, endpoint for endpoint
* `Interval.contains_eq_false_of_isEmpty` — an interval without room contains nothing
* `Interval.contains_window` — a window admits exactly what its interval contains
-/

namespace OrderedBag

open Std

variable {α : Type}

namespace Comparator

theorem compare_self (c : Comparator α) (x : α) : c.compare x x = .eq :=
  ReflCmp.compare_self

theorem reversed_compare (c : Comparator α) : c.reversed.compare = fun a b => c.compare b a := by
  funext a b
  rw [compare_reversed, compare_swap]

theorem eq_symm {c : Comparator α} {a b : α} (h : c.compare a b = .eq) : c.compare b a = .eq :=
  OrientedCmp.eq_symm h

end Comparator

/-! ## One endpoint -/

namespace Endpoint

/-- Whether an endpoint, taken as the lower one, leaves `x` outside. -/
def refuses (c : Comparator α) (p : Endpoint α) (x : α) : Bool :=
  match c.compare x p.element with
  | .lt => true
  | .eq => p.edge == .exclusive
  | .gt => false

theorem refuses_of_lt {c : Comparator α} {p : Endpoint α} {x : α}
    (h : c.compare x p.element = .lt) : p.refuses c x = true := by
  simp [refuses, h]

theorem refuses_of_eq {c : Comparator α} {p : Endpoint α} {x : α}
    (h : c.compare x p.element = .eq) : p.refuses c x = (p.edge == .exclusive) := by
  simp [refuses, h]

theorem refuses_of_gt {c : Comparator α} {p : Endpoint α} {x : α}
    (h : c.compare x p.element = .gt) : p.refuses c x = false := by
  simp [refuses, h]

/-- What is refused is at most the element at the endpoint. -/
theorem isLE_of_refuses {c : Comparator α} {p : Endpoint α} {x : α} (h : p.refuses c x = true) :
    (c.compare x p.element).isLE = true := by
  cases hx : c.compare x p.element with
  | lt => rfl
  | eq => rfl
  | gt => simp [refuses_of_gt hx] at h

/-- With an element, an endpoint refuses all that is ordered before it. -/
theorem refuses_of_isLE {c : Comparator α} {p : Endpoint α} {x y : α}
    (hxy : (c.compare x y).isLE = true) (h : p.refuses c y = true) : p.refuses c x = true := by
  cases hy : c.compare y p.element with
  | lt => exact refuses_of_lt (TransCmp.lt_of_isLE_of_lt hxy hy)
  | gt => simp [refuses_of_gt hy] at h
  | eq =>
    -- `y` stands at the endpoint, so `x` stands there as well or before it
    rw [refuses_of_eq hy] at h
    rw [TransCmp.congr_right hy] at hxy
    cases hx : c.compare x p.element with
    | lt => exact refuses_of_lt hx
    | eq => rw [refuses_of_eq hx]; exact h
    | gt => rw [hx] at hxy; simp at hxy

/-- An endpoint further up refuses all that this one refuses. -/
theorem refuses_of_refuses_of_lt {c : Comparator α} {p q : Endpoint α} {x : α}
    (hpq : c.compare q.element p.element = .lt) (h : q.refuses c x = true) :
    p.refuses c x = true :=
  refuses_of_lt (TransCmp.lt_of_isLE_of_lt (isLE_of_refuses h) hpq)

/-- Of two endpoints at the same place, an exclusive one refuses more. -/
theorem refuses_of_refuses_of_eq {c : Comparator α} {p q : Endpoint α} {x : α}
    (hpq : c.compare p.element q.element = .eq) (he : q.edge = .exclusive → p.edge = .exclusive)
    (h : q.refuses c x = true) : p.refuses c x = true := by
  have hx : c.compare x p.element = c.compare x q.element := TransCmp.congr_right hpq
  cases hq : c.compare x q.element with
  | lt => exact refuses_of_lt (hx.trans hq)
  | gt => simp [refuses_of_gt hq] at h
  | eq =>
    rw [refuses_of_eq hq, beq_iff_eq] at h
    rw [refuses_of_eq (hx.trans hq), beq_iff_eq]
    exact he h

end Endpoint

namespace Interval

theorem tooLow_eq (c : Comparator α) (r : Interval α) (x : α) :
    r.tooLow c x = r.lower.any fun p => p.refuses c x := by
  unfold tooLow Endpoint.refuses
  cases r.lower <;> rfl

/-! ## Elements in order -/

theorem tooLow_of_isLE {c : Comparator α} {r : Interval α} {x y : α}
    (hxy : (c.compare x y).isLE = true) (h : r.tooLow c y = true) : r.tooLow c x = true := by
  rw [tooLow_eq, Option.any_eq_true] at h ⊢
  obtain ⟨p, hp, hy⟩ := h
  exact ⟨p, hp, Endpoint.refuses_of_isLE hxy hy⟩

theorem tooHigh_of_isLE {c : Comparator α} {r : Interval α} {x y : α}
    (hxy : (c.compare x y).isLE = true) (h : r.tooHigh c x = true) : r.tooHigh c y = true := by
  rw [← tooLow_reverse] at h ⊢
  refine tooLow_of_isLE ?_ h
  rw [Comparator.reversed_compare]
  exact hxy

/-- Elements that compare equal are treated alike. -/
theorem contains_congr {c : Comparator α} {x y : α} (h : c.compare x y = .eq) (r : Interval α) :
    r.contains c x = r.contains c y := by
  have hxy : (c.compare x y).isLE = true := by rw [h]; rfl
  have hyx : (c.compare y x).isLE = true := by rw [Comparator.eq_symm h]; rfl
  have hlow : r.tooLow c x = r.tooLow c y :=
    Bool.eq_iff_iff.mpr ⟨tooLow_of_isLE hyx, tooLow_of_isLE hxy⟩
  have hhigh : r.tooHigh c x = r.tooHigh c y :=
    Bool.eq_iff_iff.mpr ⟨tooHigh_of_isLE hxy, tooHigh_of_isLE hyx⟩
  rw [contains, contains, hlow, hhigh]

/-! ## Intersection -/

/-- The tighter of two endpoints refuses what either of them refuses. -/
theorem any_refuses_tighter (c : Comparator α) (p q : Option (Endpoint α)) (x : α) :
    ((tighter c.compare p q).any fun p => p.refuses c x) =
      ((p.any fun p => p.refuses c x) || (q.any fun q => q.refuses c x)) := by
  cases p with
  | none => simp [tighter]
  | some p =>
    cases q with
    | none => simp [tighter]
    | some q =>
      simp only [tighter]
      -- the tighter one is the one further up, or the exclusive one of two at the same place
      cases h : c.compare p.element q.element with
      | gt =>
        have hpq := Endpoint.refuses_of_refuses_of_lt (x := x) (OrientedCmp.lt_of_gt h)
        cases hq : q.refuses c x <;> simp [hq, hpq]
      | lt =>
        have hqp := Endpoint.refuses_of_refuses_of_lt (x := x) h
        cases hp : p.refuses c x <;> simp [hp, hqp]
      | eq =>
        by_cases he : p.edge = .exclusive
        · have hpq := Endpoint.refuses_of_refuses_of_eq (x := x) h fun _ => he
          cases hq : q.refuses c x <;> simp [he, hq, hpq]
        · have hqp := Endpoint.refuses_of_refuses_of_eq (x := x) (Comparator.eq_symm h)
            fun hp => absurd hp he
          cases hp : p.refuses c x <;> simp [he, hp, hqp]

theorem tooLow_intersect (c : Comparator α) (r s : Interval α) (x : α) :
    (r.intersect c s).tooLow c x = (r.tooLow c x || s.tooLow c x) := by
  rw [tooLow_eq, tooLow_eq, tooLow_eq]
  exact any_refuses_tighter c r.lower s.lower x

/-- Reversal commutes with intersection, endpoint for endpoint. -/
theorem reverse_intersect (c : Comparator α) (r s : Interval α) :
    (r.intersect c s).reverse = r.reverse.intersect c.reversed s.reverse := by
  simp only [intersect, reverse, Comparator.reversed_compare]

theorem tooHigh_intersect (c : Comparator α) (r s : Interval α) (x : α) :
    (r.intersect c s).tooHigh c x = (r.tooHigh c x || s.tooHigh c x) := by
  rw [← tooLow_reverse, reverse_intersect, tooLow_intersect, tooLow_reverse, tooLow_reverse]

/-- An intersection contains what both intervals contain. -/
theorem contains_intersect (c : Comparator α) (r s : Interval α) (x : α) :
    (r.intersect c s).contains c x = (r.contains c x && s.contains c x) := by
  unfold contains
  rw [tooLow_intersect, tooHigh_intersect]
  cases r.tooLow c x <;> cases s.tooLow c x <;> simp

/-- An interval as it is read by the reversed comparator. -/
theorem contains_reversed (c : Comparator α) (r : Interval α) (x : α) :
    r.contains c.reversed x = r.reverse.contains c x := by
  rw [← contains_reverse c r.reverse, reverse_reverse]

/-! ## Intervals without room -/

/-- What lies beyond the lower endpoint of an interval without room lies beyond the upper one. -/
theorem tooHigh_of_isEmpty {c : Comparator α} {r : Interval α} {x : α}
    (he : r.isEmpty c = true) (hx : r.tooLow c x = false) : r.tooHigh c x = true := by
  obtain ⟨lo, hi⟩ := r
  cases lo with
  | none => simp [isEmpty] at he
  | some p =>
    cases hi with
    | none => simp [isEmpty] at he
    | some q =>
      simp only [tooLow, tooHigh, isEmpty] at he hx ⊢
      -- `x` is not before `p`, and `p` is not before `q`
      cases hp : c.compare x p.element with
      | lt => simp [hp] at hx
      | eq =>
        rw [TransCmp.congr_left hp]
        cases hpq : c.compare p.element q.element <;> simp_all
      | gt =>
        cases hpq : c.compare p.element q.element with
        | lt => simp [hpq] at he
        | eq => rw [← TransCmp.congr_right hpq, hp]
        | gt => rw [TransCmp.gt_trans hp hpq]

theorem contains_eq_false_of_isEmpty {c : Comparator α} {r : Interval α}
    (he : r.isEmpty c = true) (x : α) : r.contains c x = false := by
  unfold contains
  cases hx : r.tooLow c x with
  | true => rfl
  | false => rw [tooHigh_of_isEmpty he hx]; rfl

/-! ## Windows -/

theorem admitsAfter_startBound (c : Comparator α) (r : Interval α) (x : α) :
    r.startBound.admitsAfter c.compare x = !r.tooLow c x := by
  unfold startBound
  rw [tooLow_eq]
  cases r.lower with
  | none => rfl
  | some p =>
    obtain ⟨a, e⟩ := p
    have ha : c.compare a x = (c.compare x a).swap := (Comparator.compare_swap c a x).symm
    cases e <;>
      simp only [Option.map_some, Option.getD_some, Option.any_some, Endpoint.bound,
        Endpoint.refuses, Bound.admitsAfter, ha] <;>
      cases c.compare x a <;> rfl

theorem admitsBefore_endBound (c : Comparator α) (r : Interval α) (x : α) :
    r.endBound.admitsBefore c.compare x = !r.tooHigh c x := by
  unfold endBound tooHigh
  cases r.upper with
  | none => rfl
  | some p =>
    obtain ⟨a, e⟩ := p
    cases e <;>
      simp only [Option.map_some, Option.getD_some, Endpoint.bound, Bound.admitsBefore] <;>
      cases c.compare x a <;> rfl

/-- A window admits exactly what its interval contains. -/
theorem contains_window (c : Comparator α) (r : Interval α) (x : α) :
    r.window.contains c.compare x = r.contains c x := by
  rw [Window.contains, window, admitsAfter_startBound, admitsBefore_endBound, contains]

end Interval

end OrderedBag
