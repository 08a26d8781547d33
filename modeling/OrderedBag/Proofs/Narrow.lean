import OrderedBag.Proofs.Effects
import OrderedBag.View.Narrow

/-!
# Narrowing a view

Narrowing writes to the log and changes nothing else, whatever it is asked for. The view that it
builds rests on a range of the source itself, so no weak reference is left on its way down.

* `View.narrow_answers`, `View.sub_answers` — the outcome of narrowing, failures included
* `View.listing_narrowed` — a narrowed view shows what lies in the interval, read in the order of
  the view
-/

namespace OrderedBag

open Std OrderedBag.Action

variable {α : Type}

/-! ## References on the way down -/

namespace Registry

/-- Follows every reference on the way down to the source. -/
def reach (reg : Registry α) (v : View α) : Except Failure Unit :=
  if reg.canReach v then .ok () else .error .ownerDropped

theorem canReach_withLog (reg : Registry α) (l : List Record) (v : View α) :
    (reg.withLog l).canReach v = reg.canReach v := by
  induction v with
  | source s => rfl
  | range n s r => rfl
  | descending n link f ih =>
    cases link with
    | strong => exact ih
    | weak => exact congrArg (reg.canUpgrade f && ·) ih

@[simp] theorem reach_withLog (reg : Registry α) (l : List Record) (v : View α) :
    (reg.withLog l).reach v = reg.reach v := by
  rw [reach, canReach_withLog, reach]

theorem reach_eq_ok {reg : Registry α} {v : View α} (h : reg.canReach v = true) :
    reg.reach v = .ok () := by
  rw [reach, if_pos h]

/-- The reference of a descending view is followed first. -/
theorem reach_descending (reg : Registry α) (n : Option NodeId) (link : Link) (f : View α) :
    reg.reach (.descending n link f) = (do reg.follow link f; reg.reach f) := by
  cases link with
  | strong => rfl
  | weak =>
    rw [reach, canReach, follow_weak]
    cases hu : reg.canUpgrade f with
    | true => simp only [Bool.true_and]; rfl
    | false => rfl

end Registry

theorem View.Usable.withLog {reg : Registry α} {v : View α} (h : v.Usable reg)
    (l : List Record) : v.Usable (reg.withLog l) :=
  ⟨by rw [Registry.canReach_withLog, h.reach], h.valid⟩

/-! ## Narrowed views -/

/-- The interval, unless there is none. -/
def Interval.demand : Option (Interval α) → Except Failure (Interval α)
  | some r => .ok r
  | none => .error .invalidRange

namespace View

/-- The view that narrowing builds. -/
def narrowed : View α → Interval α → View α
  | source s, q => range none s q
  | range _ s r, q => range none s (r.intersect s.comparator q)
  | descending _ _ f, q => descending none .strong (f.narrowed q.reverse)

/-- A source that its views cannot reach builds no range. -/
def attached : View α → Except Failure Unit
  | source s => if s.access = .detached then .error .detached else .ok ()
  | range _ _ _ => .ok ()
  | descending _ _ f => f.attached

theorem attached_eq_ok {v : View α} (h : v.root.access ≠ .detached) : v.attached = .ok () := by
  induction v with
  | source s => exact if_neg h
  | range n s r => rfl
  | descending n link f ih => exact ih h

/-- A descending view has the view behind it narrowed, and turns the result around. -/
theorem answers_behind {reg : Registry α} (n : Option NodeId) (link : Link) {f : View α}
    {a : Action α (View α)} {x : Except Failure (View α)}
    (ha : ∀ l, a.Answers (reg.withLog l) (do reg.reach f; x)) :
    (do
      Action.follow link f
      let g ← a
      Action.record .descendingView
      return descending none .strong g : Action α (View α)).Answers reg
      (do reg.reach (descending n link f); x.map (descending none .strong)) := by
  rw [Registry.reach_descending]
  have hfollow := answers_follow reg link f
  cases hlink : reg.follow link f with
  | error e =>
    rw [hlink] at hfollow
    exact hfollow.bind_error
  | ok _ =>
    rw [hlink] at hfollow
    refine hfollow.bind_ok fun l => ?_
    have hf := ha l
    have hmap : (do reg.reach f; x.map (descending none .strong)) =
        (do reg.reach f; x).map (descending none .strong) := by
      cases reg.reach f <;> rfl
    show Answers _ _ (do reg.reach f; x.map (descending none .strong))
    rw [hmap]
    cases hx : (do reg.reach f; x) with
    | error e =>
      rw [hx] at hf
      exact hf.bind_error
    | ok g =>
      rw [hx] at hf
      exact hf.bind_ok fun _ => (answers_record _).bind_ok fun _ => answers_pure _

theorem source_narrow_answers (s : Source α) (q : Interval α) (reg : Registry α) :
    (s.narrow q).Answers reg (do (source s).attached; return .range none s q) := by
  unfold Source.narrow Source.reachItself attached
  by_cases hd : s.access = .detached
  · rw [if_pos hd, if_pos hd]
    exact (answers_throw _).bind_error
  · rw [if_neg hd, if_neg hd]
    exact (answers_pure _).bind_ok fun _ => (answers_record _).bind_ok fun _ => answers_pure _

/-- Narrowing follows the references down to the source, and builds the view from there. -/
theorem narrow_answers (v : View α) (q : Interval α) (reg : Registry α) :
    (v.narrow q).Answers reg (do reg.reach v; v.attached; return v.narrowed q) := by
  induction v generalizing q reg with
  | source s => exact source_narrow_answers s q reg
  | range n s r => exact (answers_record _).bind_ok fun _ => answers_pure _
  | descending n link f ih =>
    -- the outcome behind the view, turned around, is the outcome of the view
    have hturn : (do f.attached; return f.narrowed q.reverse : Except Failure (View α)).map
        (descending none .strong) =
          (do f.attached; return (descending n link f).narrowed q) := by
      cases f.attached <;> rfl
    have h := answers_behind n link fun l => by
      have hf := ih q.reverse (reg.withLog l)
      rwa [Registry.reach_withLog] at hf
    rw [hturn] at h
    exact h

theorem narrow_ok {v : View α} {reg : Registry α} (hu : v.Usable reg)
    (ha : v.root.access ≠ .detached) (q : Interval α) :
    (v.narrow q).Answers reg (.ok (v.narrowed q)) := by
  have h := narrow_answers v q reg
  rw [Registry.reach_eq_ok hu.reach, attached_eq_ok ha] at h
  exact h

/-! ## Two endpoints -/

/-- Endpoints are crossed for the reversed comparator when they are crossed the other way around. -/
theorem between?_reversed (c : Comparator α) (lo hi : Endpoint α) :
    Interval.between? c.reversed lo hi = (Interval.between? c hi lo).map Interval.reverse := by
  unfold Interval.between?
  rw [Comparator.reversed_compare]
  split <;> rfl

theorem between_answers (c : Comparator α) (lo hi : Endpoint α) (reg : Registry α) :
    (Action.between c lo hi).Answers reg (Interval.demand (Interval.between? c lo hi)) := by
  unfold Action.between
  cases Interval.between? c lo hi with
  | some r => exact answers_pure r
  | none => exact (answers_record _).bind_ok fun _ => answers_throw _

/-- The endpoints are compared by the order of the view, once its references have been followed. -/
theorem sub_answers (v : View α) (lo hi : Endpoint α) (reg : Registry α) :
    (v.sub lo hi).Answers reg (do
      reg.reach v
      let q ← Interval.demand (Interval.between? v.order lo hi)
      v.attached
      return v.narrowed q) := by
  induction v generalizing lo hi reg with
  | source s =>
    have hb := between_answers s.comparator lo hi reg
    show Answers _ reg (do
      let q ← Interval.demand (Interval.between? s.comparator lo hi)
      (source s).attached
      return (source s).narrowed q)
    cases hq : Interval.between? s.comparator lo hi with
    | none =>
      rw [hq] at hb
      exact hb.bind_error
    | some q =>
      rw [hq] at hb
      exact hb.bind_ok fun l => source_narrow_answers s q _
  | range n s r =>
    have hb := between_answers s.comparator lo hi reg
    show Answers _ reg (do
      let q ← Interval.demand (Interval.between? s.comparator lo hi)
      return (range n s r).narrowed q)
    cases hq : Interval.between? s.comparator lo hi with
    | none =>
      rw [hq] at hb
      exact hb.bind_error
    | some q =>
      rw [hq] at hb
      exact hb.bind_ok fun l => (answers_record _).bind_ok fun _ => answers_pure _
  | descending n link f ih =>
    have hturn : (do
          let q ← Interval.demand (Interval.between? f.order hi lo)
          f.attached
          return f.narrowed q : Except Failure (View α)).map (descending none .strong) =
        (do
          let q ← Interval.demand (Interval.between? (descending n link f).order lo hi)
          f.attached
          return (descending n link f).narrowed q) := by
      rw [order, between?_reversed]
      cases Interval.between? f.order hi lo with
      | none => rfl
      | some q => cases f.attached <;> rfl
    have h := answers_behind n link fun l => by
      have hf := ih hi lo (reg.withLog l)
      rwa [Registry.reach_withLog] at hf
    rw [hturn] at h
    exact h

/-! ## What a narrowed view shows -/

@[simp] theorem root_narrowed (v : View α) (q : Interval α) : (v.narrowed q).root = v.root := by
  induction v generalizing q with
  | source s => rfl
  | range n s r => rfl
  | descending n link f ih => exact ih q.reverse

@[simp] theorem facing_narrowed (v : View α) (q : Interval α) :
    (v.narrowed q).facing = v.facing := by
  induction v generalizing q with
  | source s => rfl
  | range n s r => rfl
  | descending n link f ih => exact congrArg Direction.flip (ih q.reverse)

@[simp] theorem order_narrowed (v : View α) (q : Interval α) : (v.narrowed q).order = v.order := by
  rw [order_eq, order_eq, root_narrowed, facing_narrowed]

/-- A narrowed view lets through what the view lets through and the interval contains, which is read
in the order of the view. -/
theorem admits_narrowed (v : View α) (q : Interval α) (x : α) :
    (v.narrowed q).admits x = (v.admits x && q.contains v.order x) := by
  induction v generalizing q with
  | source s => rfl
  | range n s r => exact Interval.contains_intersect s.comparator r q x
  | descending n link f ih =>
    show (f.narrowed q.reverse).admits x = (f.admits x && q.contains f.order.reversed x)
    rw [ih, Interval.contains_reversed]

theorem listing_narrowed (contents : BagId → Histogram α) (v : View α) (q : Interval α) :
    (v.narrowed q).listing contents =
      (v.listing contents).filter fun e => q.contains v.order e.element := by
  rw [listing_eq, listing_eq, Direction.filter_orient, List.filter_filter, root_narrowed,
    facing_narrowed]
  simp only [admits_narrowed, Bool.and_comm]

/-- No weak reference is left on the way down from a narrowed view. -/
theorem canReach_narrowed (reg : Registry α) (v : View α) (q : Interval α) :
    reg.canReach (v.narrowed q) = true := by
  induction v generalizing q with
  | source s => rfl
  | range n s r => rfl
  | descending n link f ih => exact ih q.reverse

theorem Usable.narrowed {reg : Registry α} {v : View α} (hu : v.Usable reg) (q : Interval α) :
    (v.narrowed q).Usable reg :=
  ⟨canReach_narrowed reg v q, by rw [root_narrowed]; exact hu.valid⟩

end View

end OrderedBag
