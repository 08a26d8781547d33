import OrderedBag.Proofs.Traversal
import OrderedBag.View.Scan

/-!
# What a view shows

A view shows those entries of its source which its intervals admit, in the direction that its
descending layers leave. Whatever is asked of it, through a cursor or by filtering the ascending
traversal, is answered from that list, apart from the running total of an indexed source. That one
tells the size, which wraps around in any case; but it also tells whether there is an entry at all,
and so a view of all entries miscounts where their counts add up to a number that wraps around to
zero.

* `View.listing_eq` — what a view shows, in terms of the entries of its source
* `View.scan_spec`, `View.scanWithin_spec` — a traversal has the shown entries ahead of it
* `View.extreme?_eq`, `View.size_eq`, `View.distinctSize_eq`, `View.isEmpty_eq` — the other readings
* `View.Miscounts`, `View.vacant_eq_iff` — when a view tells rightly whether it is empty
-/

namespace OrderedBag

open Std

variable {α : Type}

/-! ## The source behind a view -/

namespace View

/-- The direction in which the entries of the source are met when the view is visited upwards. -/
def facing : View α → Direction
  | source _ | range _ _ _ => .ascending
  | descending _ _ f => f.facing.flip

/-- Whether the intervals of a view let an element through. -/
def admits : View α → α → Bool
  | source _, _ => true
  | range _ s r, x => r.contains s.comparator x
  | descending _ _ f, x => f.admits x

theorem order_eq (v : View α) : v.order = v.root.comparator.towards v.facing := by
  induction v with
  | source s => rfl
  | range n s r => rfl
  | descending n link f ih =>
    show f.order.reversed = f.root.comparator.towards f.facing.flip
    rw [ih]
    cases f.facing
    · rfl
    · exact Comparator.reversed_reversed _

/-- A view shows what its intervals admit, as it is met in the direction that it faces. -/
theorem listing_eq (contents : BagId → Histogram α) (v : View α) :
    v.listing contents =
      v.facing.orient ((contents v.root.bag).entries.filter fun e => v.admits e.element) := by
  induction v with
  | source s => exact (List.filter_eq_self.mpr fun _ _ => rfl).symm
  | range n s r => rfl
  | descending n link f ih =>
    show (f.listing contents).reverse = f.facing.flip.orient _
    rw [ih, Direction.orient_flip]
    rfl

theorem mem_listing {contents : BagId → Histogram α} {v : View α} {e : Entry α} :
    e ∈ v.listing contents ↔
      e ∈ (contents v.root.bag).entries ∧ v.admits e.element = true := by
  rw [listing_eq, Direction.mem_orient, List.mem_filter]

/-- What a view shows is increasing in the order of the view. -/
theorem pairwise_listing {contents : BagId → Histogram α} {v : View α}
    (hs : (contents v.root.bag).entries.Pairwise v.root.comparator.Precedes) :
    (v.listing contents).Pairwise v.order.Precedes := by
  rw [listing_eq, order_eq]
  exact Comparator.pairwise_orient (hs.sublist List.filter_sublist) _

/-- Elements that compare equal are let through alike. -/
theorem admits_congr (v : View α) {x y : α} (h : v.order.compare x y = .eq) :
    v.admits x = v.admits y := by
  induction v with
  | source s => rfl
  | range n s r => exact Interval.contains_congr h r
  | descending n link f ih =>
    refine ih ?_
    rw [order, Comparator.compare_reversed] at h
    cases hf : f.order.compare x y <;> simp [hf] at h ⊢

end View

/-! ## Sources -/

namespace Source

variable {contents : BagId → Histogram α} {s : Source α}

theorem remaining_feed : (s.feed contents).remaining contents = (contents s.bag).entries := by
  unfold feed
  cases s.access with
  | indexed | sequential => exact Cursor.remaining_begin_all _ _ _
  | copying | detached => rfl

theorem fits_feed (hv : (contents s.bag).Valid s.comparator) :
    (s.feed contents).Fits contents := by
  unfold feed
  cases s.access with
  | indexed | sequential => exact hv.sorted
  | copying | detached => trivial

/-- Whether it sets a cursor, filters as it goes or collects at once, a source has the entries of
the interval ahead of it. -/
theorem scanWithin_spec (hv : (contents s.bag).Valid s.comparator) (d : Direction)
    (r : Interval α) :
    (s.scanWithin contents d r).Fits contents ∧
      (s.scanWithin contents d r).remaining contents =
        d.orient ((contents s.bag).entries.filter fun e => r.contains s.comparator e.element) := by
  have hgate : (Traversal.gated (Gate.initial s.comparator r) (s.feed contents)).remaining
      contents = (contents s.bag).entries.filter fun e => r.contains s.comparator e.element := by
    rw [Traversal.remaining_gated (by rw [remaining_feed]; exact hv.sorted), remaining_feed]
  unfold scanWithin
  cases s.access with
  | indexed => exact ⟨hv.sorted, Cursor.remaining_begin _ _ _ _⟩
  | sequential | copying | detached =>
    cases d with
    | ascending => exact ⟨fits_feed hv, hgate⟩
    | descending => exact ⟨trivial, congrArg List.reverse hgate⟩

theorem scan_spec (hv : (contents s.bag).Valid s.comparator) (d : Direction) :
    (s.scan contents d).Fits contents ∧
      (s.scan contents d).remaining contents = d.orient (contents s.bag).entries := by
  cases d with
  | ascending => exact ⟨fits_feed hv, remaining_feed⟩
  | descending =>
    obtain ⟨hfits, hrem⟩ := scanWithin_spec hv .descending .all
    refine ⟨hfits, hrem.trans ?_⟩
    exact congrArg List.reverse (List.filter_eq_self.mpr fun _ _ => rfl)

theorem extreme?_eq (hv : (contents s.bag).Valid s.comparator) (d : Direction) :
    s.extreme? contents d = d.extreme? (contents s.bag).entries := by
  have hscan : ((s.scan contents d).next contents).1 = d.extreme? (contents s.bag).entries := by
    rw [Traversal.next_fst, (scan_spec hv d).2, Direction.head?_orient]
  unfold extreme?
  cases s.access with
  | indexed => rfl
  | sequential | copying | detached => exact hscan

/-- The size that was kept up to date is the one that is added up. -/
theorem size_eq {reg : Registry α} (hw : reg.arithmetic = .wrapping)
    (hv : (reg.contents s.bag).Valid s.comparator) :
    s.size reg = .ok (wrap (totalCount (reg.contents s.bag).entries)) := by
  have hsum : reg.arithmetic.sum ((s.scan reg.contents .ascending).remaining reg.contents) =
      .ok (wrap (totalCount (reg.contents s.bag).entries)) := by
    rw [(scan_spec hv .ascending).2, hw]
    rfl
  unfold size
  cases s.access with
  | indexed => exact congrArg Except.ok hv.total_eq
  | sequential | copying | detached => exact hsum

theorem distinctSize_eq (hv : (contents s.bag).Valid s.comparator) :
    s.distinctSize contents = (contents s.bag).entries.length := by
  unfold distinctSize
  cases s.access with
  | indexed => rfl
  | sequential | copying | detached => exact congrArg List.length (scan_spec hv .ascending).2

/-- A source that looks for its first entry tells whether it has one. One that looks at its running
total does so unless that has wrapped around to zero. -/
theorem isEmpty_iff (hv : (contents s.bag).Valid s.comparator) :
    s.isEmpty contents = true ↔ (contents s.bag).entries = [] ∨
      s.access = .indexed ∧ wrap (totalCount (contents s.bag).entries) = 0 := by
  have hfirst (h : s.access ≠ .indexed) : (s.extreme? contents .ascending).isNone = true ↔
      (contents s.bag).entries = [] ∨
        s.access = .indexed ∧ wrap (totalCount (contents s.bag).entries) = 0 := by
    rw [extreme?_eq hv]
    simp [Direction.extreme?, h]
  unfold isEmpty
  cases ha : s.access with
  | indexed =>
    show ((contents s.bag).total == 0) = true ↔ _
    rw [beq_iff_eq, hv.total_eq]
    refine ⟨fun h => .inr ⟨rfl, h⟩, ?_⟩
    rintro (hnil | ⟨-, h⟩)
    · rw [hnil, totalCount_nil, wrap_zero]
    · exact h
  | sequential | copying | detached => simpa [ha] using hfirst (by simp [ha])

end Source

/-! ## Views -/

/-- Every reference on the way down to the source leads somewhere, and the contents of the source
are in order. -/
structure View.Usable (reg : Registry α) (v : View α) : Prop where
  reach : reg.canReach v = true
  valid : (reg.contents v.root.bag).Valid v.root.comparator

namespace View

variable {reg : Registry α} {v : View α}

/-- A usable descending view can follow its reference, and the view behind it is usable. -/
theorem Usable.forward {n : Option NodeId} {link : Link} {f : View α}
    (hu : (descending n link f).Usable reg) : reg.follow link f = .ok () ∧ f.Usable reg := by
  obtain ⟨hreach, hvalid⟩ := hu
  cases link with
  | strong => exact ⟨rfl, hreach, hvalid⟩
  | weak =>
    rw [Registry.canReach, Bool.and_eq_true] at hreach
    refine ⟨?_, hreach.2, hvalid⟩
    rw [Registry.follow_weak, if_pos hreach.1]

/-- A traversal of a view has the shown entries ahead of it. -/
theorem scan_spec (hu : v.Usable reg) (d : Direction) :
    ∃ t, v.scan reg d = .ok t ∧ t.Fits reg.contents ∧
      t.remaining reg.contents = d.orient (v.listing reg.contents) := by
  -- every descending view turns the direction around
  induction v generalizing d with
  | source s => exact ⟨_, rfl, Source.scan_spec hu.valid d⟩
  | range n s r => exact ⟨_, rfl, Source.scanWithin_spec hu.valid d r⟩
  | descending n link f ih =>
    obtain ⟨hfollow, hf⟩ := hu.forward
    obtain ⟨t, hscan, hfits, hrem⟩ := ih hf d.flip
    refine ⟨t, ?_, hfits, ?_⟩
    · rw [scan, hfollow]
      exact hscan
    · rw [hrem, Direction.orient_flip]
      cases d <;> simp [Direction.orient, listing]

/-- A traversal of an interval has the shown entries of the interval ahead of it. -/
theorem scanWithin_spec (hu : v.Usable reg) (d : Direction) (q : Interval α) :
    ∃ t, v.scanWithin reg d q = .ok t ∧ t.Fits reg.contents ∧
      t.remaining reg.contents =
        d.orient ((v.listing reg.contents).filter fun e => q.contains v.order e.element) := by
  -- and here the interval with it
  induction v generalizing d q with
  | source s => exact ⟨_, rfl, Source.scanWithin_spec hu.valid d q⟩
  | range n s r =>
    obtain ⟨hfits, hrem⟩ := Source.scanWithin_spec hu.valid d (r.intersect s.comparator q)
    refine ⟨_, rfl, hfits, hrem.trans ?_⟩
    rw [listing, List.filter_filter]
    simp only [Interval.contains_intersect, root, order, Bool.and_comm]
  | descending n link f ih =>
    obtain ⟨hfollow, hf⟩ := hu.forward
    obtain ⟨t, hscan, hfits, hrem⟩ := ih hf d.flip q.reverse
    refine ⟨t, ?_, hfits, ?_⟩
    · rw [scanWithin, hfollow]
      exact hscan
    · rw [hrem, Direction.orient_flip, order]
      simp only [Interval.contains_reversed, listing]
      cases d <;> simp [Direction.orient]

/-- The entry met first is the extreme one of those that are shown. -/
theorem extreme?_eq (hu : v.Usable reg) (d : Direction) :
    v.extreme? reg d = .ok (d.extreme? (v.listing reg.contents)) := by
  induction v generalizing d with
  | source s => exact congrArg Except.ok (Source.extreme?_eq hu.valid d)
  | range n s r =>
    refine congrArg Except.ok ?_
    rw [Traversal.next_fst, (Source.scanWithin_spec (s := s) hu.valid d r).2,
      Direction.head?_orient]
    rfl
  | descending n link f ih =>
    obtain ⟨hfollow, hf⟩ := hu.forward
    rw [extreme?, hfollow]
    refine (ih hf d.flip).trans ?_
    cases d <;> simp [Direction.flip, Direction.extreme?, listing]

theorem entries_eq (hu : v.Usable reg) : v.entries reg = .ok (v.listing reg.contents) := by
  obtain ⟨t, hscan, -, hrem⟩ := scan_spec hu .ascending
  rw [entries, hscan]
  exact congrArg Except.ok hrem

theorem size_eq (hw : reg.arithmetic = .wrapping) (hu : v.Usable reg) :
    v.size reg = .ok (wrap (totalCount (v.listing reg.contents))) := by
  induction v with
  | source s => exact Source.size_eq hw hu.valid
  | range n s r =>
    have hscan := (Source.scanWithin_spec (s := s) hu.valid .ascending r).2
    rw [size, hscan, hw]
    rfl
  | descending n link f ih =>
    obtain ⟨hfollow, hf⟩ := hu.forward
    rw [size, hfollow]
    refine (ih hf).trans ?_
    rw [listing, totalCount_reverse]

theorem distinctSize_eq (hu : v.Usable reg) :
    v.distinctSize reg = .ok (v.listing reg.contents).length := by
  induction v with
  | source s => exact congrArg Except.ok (Source.distinctSize_eq hu.valid)
  | range n s r =>
    exact congrArg (Except.ok ∘ List.length) (Source.scanWithin_spec hu.valid .ascending r).2
  | descending n link f ih =>
    obtain ⟨hfollow, hf⟩ := hu.forward
    rw [distinctSize, hfollow]
    refine (ih hf).trans ?_
    rw [listing, List.length_reverse]

/-- Whether the view says that it has no entry. -/
def vacant (contents : BagId → Histogram α) : View α → Bool
  | source s => s.isEmpty contents
  | range n s r => ((range n s r).listing contents).isEmpty
  | descending _ _ f => f.vacant contents

theorem isEmpty_eq (hu : v.Usable reg) : v.isEmpty reg = .ok (v.vacant reg.contents) := by
  induction v with
  | source s => rfl
  | range n s r =>
    refine congrArg Except.ok ?_
    rw [Traversal.next_fst, (Source.scanWithin_spec (s := s) hu.valid .ascending r).2,
      Direction.head?_orient]
    exact Bool.eq_iff_iff.mpr (by simp [Direction.extreme?, listing, vacant])
  | descending n link f ih =>
    obtain ⟨hfollow, hf⟩ := hu.forward
    rw [isEmpty, hfollow]
    exact ih hf

/-- The view shows all entries of an indexed source, there are some, and their counts add up to a
number that wraps around to zero. -/
def Miscounts (contents : BagId → Histogram α) : View α → Prop
  | source s => s.access = .indexed ∧ (contents s.bag).entries ≠ [] ∧
      wrap (totalCount (contents s.bag).entries) = 0
  | range _ _ _ => False
  | descending _ _ f => f.Miscounts contents

/-- A view says that it has no entry if that is so, or if it miscounts. -/
theorem vacant_iff {contents : BagId → Histogram α}
    (hv : (contents v.root.bag).Valid v.root.comparator) :
    v.vacant contents = true ↔ v.listing contents = [] ∨ v.Miscounts contents := by
  induction v with
  | source s =>
    rw [vacant, Source.isEmpty_iff (s := s) hv, listing, Miscounts]
    by_cases hnil : (contents s.bag).entries = [] <;> simp [hnil]
  | range n s r => simp [vacant, Miscounts]
  | descending n link f ih =>
    rw [vacant, ih hv, listing, Miscounts, List.reverse_eq_nil_iff]

/-- Only indexed sources look at their running total. -/
theorem Miscounts.indexed {contents : BagId → Histogram α} (h : v.Miscounts contents) :
    v.root.access = .indexed := by
  induction v with
  | source s => exact h.1
  | range n s r => exact h.elim
  | descending n link f ih => exact ih h

/-- Nor does a view of an interval. -/
theorem Miscounts.admits {contents : BagId → Histogram α} (h : v.Miscounts contents) (x : α) :
    v.admits x = true := by
  induction v with
  | source s => rfl
  | range n s r => exact h.elim
  | descending n link f ih => exact ih h

theorem Miscounts.listing_ne_nil {contents : BagId → Histogram α} (h : v.Miscounts contents) :
    v.listing contents ≠ [] := by
  induction v with
  | source s => exact h.2.1
  | range n s r => exact h.elim
  | descending n link f ih => exact fun hnil => ih h (List.reverse_eq_nil_iff.mp hnil)

/-- A view tells rightly whether it is empty exactly if it does not miscount. -/
theorem vacant_eq_iff {contents : BagId → Histogram α}
    (hv : (contents v.root.bag).Valid v.root.comparator) :
    v.vacant contents = (v.listing contents).isEmpty ↔ ¬ v.Miscounts contents := by
  rw [Bool.eq_iff_iff, vacant_iff hv, List.isEmpty_iff]
  constructor
  · intro h hm
    exact hm.listing_ne_nil (h.mp (.inr hm))
  · intro h
    simp [h]

/-- A view does not miscount while the counts that it shows add up to a number in range. -/
theorem not_miscounts_of_le {contents : BagId → Histogram α}
    (hv : (contents v.root.bag).Valid v.root.comparator)
    (hle : totalCount (v.listing contents) ≤ maxCount) : ¬ v.Miscounts contents := by
  induction v with
  | source s =>
    rintro ⟨-, hne, hzero⟩
    have hsum : totalCount (contents s.bag).entries = 0 := (wrap_of_le hle).symm.trans hzero
    exact hne (hv.totalCount_eq_zero_iff.mp hsum)
  | range n s r => exact id
  | descending n link f ih =>
    exact ih hv (Nat.le_trans (Nat.le_of_eq (totalCount_reverse _).symm) hle)

/-- A visit of occurrences repeats every shown element as often as it occurs. -/
theorem occurrences_spec (hu : v.Usable reg) :
    ∃ o, v.occurrences reg = .ok o ∧ ∀ n, o.take reg.contents n =
      ((v.listing reg.contents).flatMap Entry.occurrences).take n := by
  obtain ⟨t, hscan, hfits, hrem⟩ := scan_spec hu .ascending
  refine ⟨.begin t, ?_, fun n => ?_⟩
  · rw [occurrences, hscan]
    rfl
  · have hcounts : ∀ e ∈ t.remaining reg.contents, 1 ≤ e.count := by
      intro e he
      rw [hrem, Direction.mem_orient, mem_listing] at he
      exact (hu.valid.counts e he.1).1
    rw [Occurrences.take_begin hfits hcounts, hrem]
    rfl

end View

end OrderedBag
