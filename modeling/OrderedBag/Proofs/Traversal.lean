import OrderedBag.Proofs.Histogram
import OrderedBag.Traversal.Walk

/-!
# What a traversal yields

While nothing changes, a traversal over sorted contents yields one by one the entries that remain,
and each time what remains is the rest of the list.

* `Cursor.remaining_begin`, `Traversal.remaining_gated` — at its opening a traversal has exactly the
  entries of its interval ahead of it
* `Traversal.remaining_next` — a step leaves the tail of what remained
* `Traversal.nexts_eq` — asking again and again yields what remains, and nothing after that
* `Occurrences.take_begin` — a visit of occurrences repeats every element as often as it occurs
-/

namespace OrderedBag

open Std

variable {α : Type}

/-- The comparator by which the entries met in a direction are increasing. -/
def Comparator.towards (c : Comparator α) : Direction → Comparator α
  | .ascending => c
  | .descending => c.reversed

theorem Comparator.pairwise_orient {c : Comparator α} {es : List (Entry α)}
    (h : es.Pairwise c.Precedes) (d : Direction) :
    (d.orient es).Pairwise (c.towards d).Precedes := by
  cases d with
  | ascending => exact h
  | descending => exact pairwise_reverse h

/-! ## Cursors -/

namespace Cursor

/-- Whether an element lies where the next look-up searches. -/
def admits (k : Cursor α) (x : α) : Bool :=
  k.window.contains k.comparator.compare x

theorem remaining_eq {h : Histogram α} {k : Cursor α} (hk : k.exhausted = false) :
    k.remaining h = k.direction.orient (h.entries.filter fun e => k.admits e.element) := by
  simp [remaining, hk, admits]

theorem remaining_of_exhausted {h : Histogram α} {k : Cursor α} (hk : k.exhausted = true) :
    k.remaining h = [] := by
  simp [remaining, hk]

/-- A new cursor has the entries of its interval ahead of it. -/
theorem remaining_begin (c : Comparator α) (r : Interval α) (d : Direction) (h : Histogram α) :
    (begin c r d).remaining h = d.orient (h.entries.filter fun e => r.contains c e.element) := by
  cases he : r.isEmpty c with
  | true =>
    have hnone : (h.entries.filter fun e => r.contains c e.element) = [] :=
      List.filter_eq_nil_iff.mpr fun e _ => by simp [Interval.contains_eq_false_of_isEmpty he]
    rw [remaining_of_exhausted he, hnone]
    cases d <;> rfl
  | false =>
    rw [remaining_eq he]
    simp only [admits, begin, window, Interval.contains_window]

theorem remaining_begin_all (c : Comparator α) (d : Direction) (h : Histogram α) :
    (begin c .all d).remaining h = d.orient h.entries := by
  rw [remaining_begin]
  exact congrArg d.orient (List.filter_eq_self.mpr fun _ _ => rfl)

theorem admits_none (c : Comparator α) (r : Interval α) (d : Direction) (ex : Bool) (y : α) :
    (⟨c, r, d, none, ex⟩ : Cursor α).admits y = r.contains c y :=
  Interval.contains_window c r y

theorem admits_ascending (c : Comparator α) (r : Interval α) (x : α) (ex : Bool) (y : α) :
    (⟨c, r, .ascending, some x, ex⟩ : Cursor α).admits y =
      ((c.compare x y).isLT && !r.tooHigh c y) := by
  rw [← Interval.admitsBefore_endBound]
  rfl

theorem admits_descending (c : Comparator α) (r : Interval α) (x : α) (ex : Bool) (y : α) :
    (⟨c, r, .descending, some x, ex⟩ : Cursor α).admits y =
      (!r.tooLow c y && (c.compare y x).isLT) := by
  rw [← Interval.admitsAfter_startBound]
  rfl

/-- Once an element is yielded, the look-up searches strictly beyond it. -/
theorem admits_last {k : Cursor α} {x : α} (hx : k.admits x = true) (y : α) :
    ({ k with last := some x } : Cursor α).admits y =
      (((k.comparator.towards k.direction).compare x y).isLT && k.admits y) := by
  obtain ⟨c, r, d, last, exhausted⟩ := k
  cases d with
  | ascending =>
    -- strictly after `x`, which lies in the interval, nothing is too low
    simp only [admits_ascending, Comparator.towards]
    cases hxy : c.compare x y with
    | lt =>
      cases last with
      | none =>
        rw [admits_none, Interval.contains] at hx ⊢
        have hlow : r.tooLow c y = false := by
          cases hy : r.tooLow c y with
          | false => rfl
          | true => simp [Interval.tooLow_of_isLE (by rw [hxy]; rfl) hy] at hx
        simp [hlow]
      | some z =>
        rw [admits_ascending, Bool.and_eq_true, Ordering.isLT_iff_eq_lt] at hx
        rw [admits_ascending, TransCmp.lt_trans hx.1 hxy]
        rfl
    | _ => rfl
  | descending =>
    -- and strictly before it nothing is too high
    simp only [admits_descending, Comparator.towards, Comparator.reversed_compare]
    cases hyx : c.compare y x with
    | lt =>
      cases last with
      | none =>
        rw [admits_none, Interval.contains] at hx ⊢
        have hhigh : r.tooHigh c y = false := by
          cases hy : r.tooHigh c y with
          | false => rfl
          | true => simp [Interval.tooHigh_of_isLE (by rw [hyx]; rfl) hy] at hx
        simp [hhigh]
      | some z =>
        rw [admits_descending, Bool.and_eq_true, Ordering.isLT_iff_eq_lt] at hx
        rw [admits_descending, TransCmp.lt_trans hyx hx.2]
        simp
    | _ => simp

theorem pairwise_remaining {h : Histogram α} {k : Cursor α}
    (hs : h.entries.Pairwise k.comparator.Precedes) :
    (k.remaining h).Pairwise (k.comparator.towards k.direction).Precedes := by
  cases hk : k.exhausted with
  | true => simp [remaining_of_exhausted hk]
  | false =>
    rw [remaining_eq hk]
    exact Comparator.pairwise_orient (hs.sublist List.filter_sublist) _

/-- Of a sorted list, what is strictly beyond an element is what follows it. -/
theorem filter_beyond {c : Comparator α} {as bs : List (Entry α)} {e : Entry α}
    (h : (as ++ e :: bs).Pairwise c.Precedes) :
    ((as ++ e :: bs).filter fun f => (c.compare e.element f.element).isLT) = bs := by
  obtain ⟨-, hbs, has⟩ := List.pairwise_append.mp h
  have hbefore : (as.filter fun f => (c.compare e.element f.element).isLT) = [] := by
    refine List.filter_eq_nil_iff.mpr ?_
    intro f hf
    rw [OrientedCmp.gt_of_lt (has f hf e (by simp))]
    simp
  have hafter : (bs.filter fun f => (c.compare e.element f.element).isLT) = bs := by
    refine List.filter_eq_self.mpr ?_
    intro f hf
    rw [(List.pairwise_cons.mp hbs).1 f hf]
    rfl
  rw [List.filter_append, hbefore, List.filter_cons_of_neg (by simp [Comparator.compare_self]),
    hafter, List.nil_append]

/-- Once an element is yielded, what remains of any contents is what lies beyond it. -/
theorem remaining_last {k : Cursor α} {x : α} (hk : k.exhausted = false)
    (hx : k.admits x = true) (h : Histogram α) :
    ({ k with last := some x } : Cursor α).remaining h =
      (k.remaining h).filter fun e =>
        ((k.comparator.towards k.direction).compare x e.element).isLT := by
  rw [remaining_eq hk, Direction.filter_orient, List.filter_filter,
    remaining_eq (k := { k with last := some x }) hk]
  simp only [admits_last hx]

/-- Skipping ahead leaves what follows the entry that is yielded. -/
theorem remaining_advance {h : Histogram α} {k : Cursor α}
    (hs : h.entries.Pairwise k.comparator.Precedes) (p : Entry α → Bool) :
    (k.advance p h).2.remaining h = ((k.remaining h).dropWhile fun e => !p e).tail := by
  unfold advance
  cases hf : (k.remaining h).find? p with
  | none =>
    have hall : (k.remaining h).dropWhile (fun e => !p e) = [] := by
      rw [← List.head?_eq_none_iff, head?_dropWhile]
      simpa only [Bool.not_not] using hf
    rw [hall, List.tail_nil]
    exact remaining_of_exhausted rfl
  | some e =>
    obtain ⟨hpe, as, bs, hsplit, has⟩ := List.find?_eq_some_iff_append.mp hf
    have hdrop : (k.remaining h).dropWhile (fun e => !p e) = e :: bs := by
      rw [hsplit, List.dropWhile_append_of_pos (by simpa using has),
        List.dropWhile_cons_of_neg (by simp [hpe])]
    have hk : k.exhausted = false := by
      cases hk : k.exhausted with
      | false => rfl
      | true => simp [remaining_of_exhausted hk] at hsplit
    have hmem : e ∈ k.remaining h := by rw [hsplit]; simp
    have hadm : k.admits e.element = true := by
      rw [remaining_eq hk, Direction.mem_orient] at hmem
      exact (List.mem_filter.mp hmem).2
    -- the cursor searches beyond `e` from now on, which cuts off what comes before `bs`
    rw [hdrop, List.tail_cons, remaining_last hk hadm]
    have hs' := pairwise_remaining hs
    rw [hsplit] at hs' ⊢
    exact filter_beyond hs'

end Cursor

/-! ## Feeds and gates -/

/-- The contents on which a feed draws are sorted by its comparator. -/
def Feed.Fits (contents : BagId → Histogram α) : Feed α → Prop
  | live b k => (contents b).entries.Pairwise k.comparator.Precedes
  | copied _ => True

/-- Skipping ahead leaves what follows the entry that is yielded. -/
theorem Feed.remaining_advance {contents : BagId → Histogram α} {f : Feed α}
    (hf : f.Fits contents) (p : Entry α → Bool) :
    (f.advance p contents).2.remaining contents =
      ((f.remaining contents).dropWhile fun e => !p e).tail := by
  cases f with
  | live b k => exact Cursor.remaining_advance hf p
  | copied es =>
    unfold advance remaining
    simp only
    cases es.dropWhile fun e => !p e <;> rfl

theorem Feed.fits_advance {contents : BagId → Histogram α} {f : Feed α} (hf : f.Fits contents)
    (p : Entry α → Bool) : (f.advance p contents).2.Fits contents := by
  cases f with
  | live b k =>
    have hc : (k.advance p (contents b)).2.comparator = k.comparator := by
      unfold Cursor.advance
      split <;> rfl
    show (contents b).entries.Pairwise (k.advance p (contents b)).2.comparator.Precedes
    rw [hc]
    exact hf
  | copied es =>
    unfold advance
    simp only
    cases es.dropWhile fun e => !p e <;> trivial

namespace Traversal

/-- The contents on which a traversal draws are sorted by its comparator. -/
def Fits (contents : BagId → Histogram α) : Traversal α → Prop
  | direct f => f.Fits contents
  | gated _ f => f.Fits contents

/-- A gate that has met no entry lets exactly the entries of its interval through. -/
theorem remaining_gated {contents : BagId → Histogram α} {c : Comparator α} {f : Feed α}
    (hs : (f.remaining contents).Pairwise c.Precedes) (r : Interval α) :
    (gated (Gate.initial c r) f).remaining contents =
      (f.remaining contents).filter fun e => r.contains c e.element := by
  have hlow : (f.remaining contents).Pairwise fun d e =>
      r.tooLow c e.element = true → r.tooLow c d.element = true :=
    hs.imp fun {d e} hde => Interval.tooLow_of_isLE (by rw [hde]; rfl)
  have hhigh : (f.remaining contents).Pairwise fun d e =>
      (!r.tooHigh c e.element) = true → (!r.tooHigh c d.element) = true := by
    refine hs.imp ?_
    intro d e hde he
    cases hd : r.tooHigh c d.element with
    | false => rfl
    | true => rw [Interval.tooHigh_of_isLE (by rw [hde]; rfl) hd] at he; simp at he
  show ((f.remaining contents).dropWhile fun e => r.tooLow c e.element).takeWhile
    (fun e => !r.tooHigh c e.element) = _
  rw [hlow.dropWhile_eq_filter, (hhigh.sublist List.filter_sublist).takeWhile_eq_filter,
    List.filter_filter]
  simp only [Interval.contains, Bool.and_comm]

/-- A step leaves the tail of what remained. -/
theorem remaining_next {contents : BagId → Histogram α} {t : Traversal α} (ht : t.Fits contents) :
    (t.next contents).2.remaining contents = (t.remaining contents).tail := by
  cases t with
  | direct f =>
    show (f.advance (fun _ => true) contents).2.remaining contents = (f.remaining contents).tail
    rw [Feed.remaining_advance ht]
    cases f.remaining contents <;> simp
  | gated g f =>
    obtain ⟨c, r, entered, closed⟩ := g
    cases closed with
    | true => rfl
    | false =>
      -- what the gate passes over is what it would skip if it were asked for all entries
      have hskip : ((f.remaining contents).dropWhile
            fun e => !(entered || !r.tooLow c e.element)) =
          if entered then f.remaining contents
          else (f.remaining contents).dropWhile fun e => r.tooLow c e.element := by
        cases entered with
        | true => cases f.remaining contents <;> simp
        | false => simp
      have hfst := Feed.advance_fst (fun e => entered || !r.tooLow c e.element) contents f
      have hsnd := Feed.remaining_advance ht fun e => entered || !r.tooLow c e.element
      rw [hskip] at hsnd
      have hhead := head?_dropWhile (fun e => !(entered || !r.tooLow c e.element))
        (f.remaining contents)
      rw [hskip] at hhead
      simp only [Bool.not_not] at hhead
      rw [← hhead] at hfst
      simp only [next, remaining, Bool.false_eq_true, if_false]
      revert hfst hsnd
      generalize f.advance (fun e => entered || !r.tooLow c e.element) contents = step
      obtain ⟨found, f'⟩ := step
      cases (if entered = true then f.remaining contents
          else (f.remaining contents).dropWhile fun e => r.tooLow c e.element) with
      | nil =>
        rintro rfl hsnd
        simp only [List.head?_nil, List.tail_nil] at hsnd ⊢
        simp [hsnd]
      | cons e rest =>
        rintro rfl hsnd
        simp only [List.head?_cons, List.tail_cons] at hsnd ⊢
        cases hh : r.tooHigh c e.element with
        | true => simp [hh]
        | false => simp [hh, hsnd]

theorem fits_next {contents : BagId → Histogram α} {t : Traversal α} (ht : t.Fits contents) :
    (t.next contents).2.Fits contents := by
  cases t with
  | direct f => exact Feed.fits_advance (f := f) ht _
  | gated g f =>
    obtain ⟨c, r, entered, closed⟩ := g
    cases closed with
    | true => exact ht
    | false =>
      have hf := Feed.fits_advance (f := f) ht fun e => entered || !r.tooLow c e.element
      simp only [next, Bool.false_eq_true, if_false]
      revert hf
      generalize f.advance (fun e => entered || !r.tooLow c e.element) contents = step
      obtain ⟨found, f'⟩ := step
      intro hf
      cases found with
      | none => exact hf
      | some e => cases hh : r.tooHigh c e.element <;> simpa [hh, Fits] using hf

/-- Asked again and again, a traversal yields what remains, and nothing after that. -/
theorem nexts_eq {contents : BagId → Histogram α} {t : Traversal α} (ht : t.Fits contents)
    (n : Nat) :
    t.nexts contents n =
      ((t.remaining contents).map some ++ List.replicate n none).take n := by
  -- the induction is over all traversals, since each step leaves another one
  induction n generalizing t with
  | zero => simp [nexts]
  | succ n ih =>
    show (t.next contents).1 :: nexts contents n (t.next contents).2 = _
    rw [ih (fits_next ht), next_fst, remaining_next ht]
    cases t.remaining contents with
    | nil => simp [List.replicate_succ]
    | cons e es => simp [List.replicate_succ', ← List.append_assoc, List.take_append_of_le_length]

end Traversal

/-! ## Occurrences -/

namespace Occurrences

/-- The occurrences that have yet to be yielded. -/
def remaining (contents : BagId → Histogram α) (o : Occurrences α) : List α :=
  (o.current.map fun c => List.replicate c.2 c.1).getD [] ++
    (o.entries.remaining contents).flatMap Entry.occurrences

@[simp] theorem remaining_begin (contents : BagId → Histogram α) (t : Traversal α) :
    (begin t).remaining contents = (t.remaining contents).flatMap Entry.occurrences := rfl

/-- Every entry that a traversal has ahead occurs at least once. -/
def Fits (contents : BagId → Histogram α) (o : Occurrences α) : Prop :=
  o.entries.Fits contents ∧ ∀ e ∈ o.entries.remaining contents, 1 ≤ e.count

/-- What a step does when no element is being repeated: it reaches the next entry. -/
def fetched (contents : BagId → Histogram α) (t : Traversal α) : Option α × Occurrences α :=
  match t.next contents with
  | (some e, t) => (some e.element, ⟨t, some (e.element, e.count - 1)⟩)
  | (none, t) => (none, ⟨t, none⟩)

/-- A step yields the first occurrence that remains, and leaves the others. -/
theorem next_eq {contents : BagId → Histogram α} {o : Occurrences α} (ho : o.Fits contents) :
    (o.next contents).1 = (o.remaining contents).head? ∧
      (o.next contents).2.remaining contents = (o.remaining contents).tail ∧
      (o.next contents).2.Fits contents := by
  obtain ⟨t, current⟩ := o
  -- when nothing is being repeated, the next entry is fetched
  have fetch (n : Option (α × Nat)) (hn : (n.map fun c => List.replicate c.2 c.1).getD [] = [])
      (hstep : (⟨t, n⟩ : Occurrences α).next contents = fetched contents t) :
      ((⟨t, n⟩ : Occurrences α).next contents).1 =
          ((⟨t, n⟩ : Occurrences α).remaining contents).head? ∧
        ((⟨t, n⟩ : Occurrences α).next contents).2.remaining contents =
          ((⟨t, n⟩ : Occurrences α).remaining contents).tail ∧
        ((⟨t, n⟩ : Occurrences α).next contents).2.Fits contents := by
    have hfst := Traversal.next_fst contents t
    have hsnd := Traversal.remaining_next ho.1
    have hfits := Traversal.fits_next ho.1
    have hcounts := ho.2
    rw [hstep]
    simp only [fetched, remaining, hn, List.nil_append] at hsnd ⊢
    revert hfst hsnd hfits
    generalize t.next contents = step
    obtain ⟨found, t'⟩ := step
    cases hrem : t.remaining contents with
    | nil =>
      rintro rfl hsnd hfits
      simp only [List.tail_nil] at hsnd
      refine ⟨rfl, ?_, hfits, ?_⟩ <;> simp [hsnd]
    | cons e rest =>
      rintro rfl hsnd hfits
      simp only [List.tail_cons] at hsnd
      have hpos : 1 ≤ e.count := hcounts e (by rw [hrem]; simp)
      obtain ⟨x, k⟩ := e
      obtain ⟨k, rfl⟩ : ∃ j, k = j + 1 := ⟨k - 1, by simp at hpos; omega⟩
      refine ⟨by simp [Entry.occurrences, List.replicate_succ], ?_, hfits, ?_⟩
      · simp [hsnd, Entry.occurrences, List.replicate_succ]
      · intro f hf
        have hf : f ∈ t'.remaining contents := hf
        rw [hsnd] at hf
        exact hcounts f (by rw [hrem]; exact List.mem_cons_of_mem _ hf)
  cases current with
  | none => exact fetch none rfl rfl
  | some c =>
    obtain ⟨x, n⟩ := c
    cases n with
    | zero => exact fetch (some (x, 0)) rfl rfl
    | succ n => exact ⟨rfl, rfl, ho⟩

/-- A visit of occurrences yields the occurrences that remain. -/
theorem take_eq {contents : BagId → Histogram α} {o : Occurrences α} (ho : o.Fits contents)
    (n : Nat) : o.take contents n = (o.remaining contents).take n := by
  induction n generalizing o with
  | zero => simp [take]
  | succ n ih =>
    obtain ⟨hfst, hsnd, hfits⟩ := next_eq ho
    unfold take
    revert hfst hsnd hfits
    generalize o.next contents = step
    obtain ⟨found, o'⟩ := step
    cases o.remaining contents with
    | nil =>
      rintro rfl - -
      rfl
    | cons x xs =>
      rintro rfl hsnd hfits
      simp only [List.head?_cons, List.tail_cons, List.take_succ_cons] at hsnd ⊢
      rw [ih hfits, hsnd]

/-- A visit of occurrences repeats every element as often as it occurs. -/
theorem take_begin {contents : BagId → Histogram α} {t : Traversal α} (ht : t.Fits contents)
    (hcounts : ∀ e ∈ t.remaining contents, 1 ≤ e.count) (n : Nat) :
    (begin t).take contents n =
      ((t.remaining contents).flatMap Entry.occurrences).take n :=
  take_eq ⟨ht, hcounts⟩ n

end Occurrences

end OrderedBag
