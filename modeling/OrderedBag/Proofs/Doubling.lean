import OrderedBag.Proofs.Lifetimes
import OrderedBag.Proofs.Overflow

/-!
# Extending a source by its own view

The iterator over a view goes on while the elements that it yields are inserted into the very source
that it walks. It comes to an end all the same: an entry is repeated as often as it said when it was
reached, and from then on the iterator is past it. So every count that the view shows is doubled,
and nothing else changes.

* `Source.Drains` — the loop that asks an iterator and inserts what it yields, for as long as it
  yields anything
* `Source.drains_of_extend` — the loop ends, and it inserts what the iterator had ahead at the start
* `Source.extend_raises` — to insert elements that are there raises their counts
* `Session.absorb_doubles` — extending a source by its own view doubles what the view shows
-/

namespace OrderedBag

open Std OrderedBag.Action

variable {α : Type} {c : Comparator α}

/-! ## The loop -/

namespace Occurrences

/-- The iterator is past the element that it is repeating, in the bag of the source. -/
def HasPassed (s : Source α) (o : Occurrences α) : Prop :=
  ∀ x n, o.current = some (x, n) → o.entries.feed.HasPassed s x

theorem hasPassed_begin (s : Source α) (t : Traversal α) : (begin t).HasPassed s :=
  fun _ _ h => by cases h

/-- An iterator that yields an element goes on repeating it, and is past it. -/
theorem next_passed {s : Source α} {contents : BagId → Histogram α} {o o' : Occurrences α} {x : α}
    (ha : o.entries.feed.Agrees s) (hp : o.HasPassed s) (h : o.next contents = (some x, o')) :
    o'.entries.feed.Agrees s ∧ o'.HasPassed s ∧ o'.entries.feed.HasPassed s x := by
  obtain ⟨t, current⟩ := o
  unfold next at h
  split at h
  next y n hcurrent =>
    simp only at hcurrent
    obtain ⟨hx, rfl⟩ := Prod.mk.inj h
    obtain rfl : y = x := Option.some.inj hx
    have hpassed := hp y (n + 1) hcurrent
    refine ⟨ha, ?_, hpassed⟩
    rintro z k ⟨⟩
    exact hpassed
  next =>
    split at h
    next e t' hnext =>
      obtain ⟨hx, rfl⟩ := Prod.mk.inj h
      obtain rfl : e.element = x := Option.some.inj hx
      obtain ⟨ha', hpassed⟩ := Traversal.next_passed ha hnext
      refine ⟨ha', ?_, hpassed⟩
      rintro z k ⟨⟩
      exact hpassed
    next => cases h

end Occurrences

namespace Source

/-- The loop that asks an iterator and inserts each element that it yields, until it yields none.
Whatever is inserted is there when the iterator is asked again. -/
inductive Drains (s : Source α) : Occurrences α → Registry α → Registry α → Prop
  | done {o : Occurrences α} {reg : Registry α} (h : (o.next reg.contents).1 = none) :
      Drains s o reg reg
  | insert {o o' : Occurrences α} {reg reg' reg'' : Registry α} {x : α} {previous : Option Nat}
      (h : o.next reg.contents = (some x, o'))
      (hinsert : (s.insert x 1).perform reg = (.ok previous, reg'))
      (rest : Drains s o' reg' reg'') : Drains s o reg reg''

variable {s : Source α} {reg reg' : Registry α}

/-- The loop inserts what the iterator had ahead at the start, and then it ends. -/
theorem drains_of_extend {o : Occurrences α} (ho : o.Fits reg.contents)
    (ha : o.entries.feed.Agrees s) (hp : o.HasPassed s)
    (h : (s.extend (o.remaining reg.contents)).perform reg = (.ok (), reg')) :
    s.Drains o reg reg' := by
  -- by induction on what is ahead
  generalize hrem : o.remaining reg.contents = xs at h
  induction xs generalizing o reg with
  | nil =>
    obtain ⟨-, rfl⟩ := Prod.mk.inj h
    refine .done ?_
    rw [(Occurrences.next_eq ho).1, hrem]
    rfl
  | cons x xs ih =>
    obtain ⟨hfst, hsnd, hfits⟩ := Occurrences.next_eq ho
    rw [hrem] at hfst hsnd
    cases hnext : o.next reg.contents with
    | mk found o' =>
      rw [hnext] at hfst hsnd hfits
      obtain rfl : found = some x := hfst
      obtain ⟨ha', hp', hx⟩ := Occurrences.next_passed ha hp hnext
      cases hi : (s.insert x 1).perform reg with
      | mk answer reg₁ =>
        cases answer with
        | error e =>
          rw [extend, perform_bind_error hi] at h
          cases h
        | ok previous =>
          rw [extend, perform_bind_ok hi] at h
          -- the insertion of `x` makes no difference for an iterator that is past it
          have hinserted := inserted_of_insert hi
          have hsame := Traversal.remaining_congr (Feed.remaining_inserted hx hinserted)
          have hfits' : o'.Fits reg₁.contents := by
            refine ⟨Traversal.fits_iff.mpr ?_, ?_⟩
            · exact Feed.fits_inserted ha' (Traversal.fits_iff.mp hfits.1) hinserted
            · rw [hsame]
              exact hfits.2
          have hrest : o'.remaining reg₁.contents = xs := by
            unfold Occurrences.remaining at hsnd ⊢
            rw [hsame]
            exact hsnd
          exact .insert hnext hi (ih hfits' ha' hp' hrest h)

end Source

/-! ## Raising counts -/

namespace Histogram

/-- The entries, with the count of each raised by the elements that belong to it. -/
def raised (c : Comparator α) (xs : List α) (es : List (Entry α)) : List (Entry α) :=
  es.map fun e => ⟨e.element, e.count + xs.countP fun x => (c.compare x e.element).isEq⟩

theorem raised_nil (c : Comparator α) (es : List (Entry α)) : raised c [] es = es :=
  List.map_id' es

theorem raised_raised (c : Comparator α) (x : α) (xs : List α) (es : List (Entry α)) :
    raised c xs (raised c [x] es) = raised c (x :: xs) es := by
  unfold raised
  rw [List.map_map]
  refine List.map_congr_left fun e _ => ?_
  simp only [Function.comp_apply, List.countP_cons, List.countP_nil, Entry.mk.injEq, true_and]
  omega

/-- Nothing is raised where no element belongs. -/
theorem raised_of_ne {x : α} {es : List (Entry α)} (h : ∀ e ∈ es, c.compare x e.element ≠ .eq) :
    raised c [x] es = es := by
  refine (List.map_congr_left fun e he => ?_).trans (List.map_id' es)
  have hne : (c.compare x e.element).isEq = false := by simpa using h e he
  simp [hne]

/-- To insert an element that is there raises its count. -/
theorem addTo_of_mem {es : List (Entry α)} (hs : es.Pairwise c.Precedes) {e : Entry α}
    (he : e ∈ es) {x : α} (hx : c.compare e.element x = .eq) :
    addTo c x 1 es = raised c [x] es := by
  induction es with
  | nil => cases he
  | cons d es ih =>
    obtain ⟨hd, hes⟩ := List.pairwise_cons.mp hs
    have hxe := Comparator.eq_symm hx
    unfold addTo
    split
    next hlt =>
      -- the entry of `x` does not come before `x`
      rcases List.mem_cons.mp he with rfl | he
      · rw [hxe] at hlt
        cases hlt
      · have hdx : c.compare d.element x = .lt := TransCmp.lt_of_lt_of_eq (hd e he) hx
        rw [OrientedCmp.gt_of_lt hdx] at hlt
        cases hlt
    next heq =>
      have hrest : raised c [x] es = es := raised_of_ne fun f hf hxf => by
        have hlt : c.compare x f.element = .lt := TransCmp.lt_of_eq_of_lt heq (hd f hf)
        rw [hlt] at hxf
        cases hxf
      have hcons : raised c [x] (d :: es) = ⟨d.element, d.count + 1⟩ :: raised c [x] es := by
        simp [raised, heq]
      rw [hcons, hrest]
    next hgt =>
      have he : e ∈ es := by
        rcases List.mem_cons.mp he with rfl | he
        · rw [hxe] at hgt
          cases hgt
        · exact he
      have hcons : raised c [x] (d :: es) = d :: raised c [x] es := by
        simp [raised, hgt]
      rw [hcons, ih hes he]

end Histogram

/-- To insert elements that are there raises their counts, and changes no entry otherwise. -/
theorem Source.extend_raises {s : Source α} {reg : Registry α} (hs : reg.Sound)
    (hh : reg.Houses (.source s)) {xs : List α}
    (hxs : ∀ x ∈ xs, ∃ e ∈ (reg.contents s.bag).entries, s.comparator.compare e.element x = .eq)
    (hroom : ∀ e ∈ Histogram.raised s.comparator xs (reg.contents s.bag).entries,
      e.count ≤ maxCount) :
    ∃ reg', (s.extend xs).perform reg = (.ok (), reg') ∧
      reg'.contents s.bag = ⟨Histogram.raised s.comparator xs (reg.contents s.bag).entries,
        wrap ((reg.contents s.bag).total + xs.length)⟩ ∧
      ∀ b, b ≠ s.bag → reg'.contents b = reg.contents b := by
  induction xs generalizing reg with
  | nil =>
    have htotal := (hs.stocked.stocks s hh).2.total_le
    refine ⟨reg, rfl, ?_, fun _ _ => rfl⟩
    rw [Histogram.raised_nil, List.length_nil, Nat.add_zero, wrap_of_le htotal]
  | cons x xs ih =>
    obtain ⟨⟨e, he, hex⟩, hxs⟩ := List.forall_mem_cons.mp hxs
    have hvalid := (hs.stocked.stocks s hh).2
    have hraised := Histogram.raised_raised s.comparator x xs (reg.contents s.bag).entries
    -- the entry has room for what is still to come, and for `x` to begin with
    have hentry : (reg.contents s.bag).multiplicity s.comparator x + 1 ≤ maxCount := by
      have hmem := hroom _ (List.mem_map_of_mem he)
      rw [hvalid.multiplicity_of_mem he hex]
      simp only [List.countP_cons, Comparator.eq_symm hex, Ordering.isEq_eq, if_true] at hmem
      omega
    obtain ⟨reg₁, hinsert, hm, hown, hothers⟩ := insert_spec hs hh (Nat.le_refl 1) hentry
    rw [Histogram.addTo_of_mem hvalid.sorted he hex] at hown
    have hxs₁ (y : α) (hy : y ∈ xs) : ∃ f ∈ (reg₁.contents s.bag).entries,
        s.comparator.compare f.element y = .eq := by
      obtain ⟨f, hf, hfy⟩ := hxs y hy
      rw [hown]
      exact ⟨_, List.mem_map_of_mem hf, hfy⟩
    have hroom₁ : ∀ f ∈ Histogram.raised s.comparator xs (reg₁.contents s.bag).entries,
        f.count ≤ maxCount := by
      rw [hown, hraised]
      exact hroom
    obtain ⟨reg', hextend, hafter, hothers'⟩ := ih (hs.moves hm) (hh.moves hm) hxs₁ hroom₁
    refine ⟨reg', (perform_bind_ok hinsert).trans hextend, ?_, fun b hb => ?_⟩
    · rw [hafter, hown, hraised, wrap_wrap_add, List.length_cons, Nat.add_assoc, Nat.add_comm 1]
    · rw [hothers' b hb, hothers b hb]

/-! ## Raising by what a view shows -/

/-- The occurrences of a list of entries, counted. -/
theorem Comparator.countP_occurrences (c : Comparator α) (es : List (Entry α)) (y : α) :
    (es.flatMap Entry.occurrences).countP (fun x => (c.compare x y).isEq) = c.tally es y := by
  induction es with
  | nil => rfl
  | cons e es ih =>
    rw [List.flatMap_cons, List.countP_append, ih, tally_cons, Entry.occurrences,
      List.countP_replicate]

theorem length_occurrences (es : List (Entry α)) :
    (es.flatMap Entry.occurrences).length = totalCount es := by
  induction es with
  | nil => rfl
  | cons e es ih =>
    rw [List.flatMap_cons, List.length_append, ih, totalCount_cons, Entry.occurrences,
      List.length_replicate]

/-- The entry with twice its count if its element is shown, and otherwise the entry itself. -/
def Entry.doubledIn (c : Comparator α) (shown : List (Entry α)) (e : Entry α) : Entry α :=
  if shown.any fun f => (c.compare f.element e.element).isEq then ⟨e.element, 2 * e.count⟩ else e

@[simp] theorem Entry.element_doubledIn (c : Comparator α) (shown : List (Entry α)) (e : Entry α) :
    (e.doubledIn c shown).element = e.element := by
  unfold doubledIn
  split <;> rfl

namespace View

variable {v : View α} {contents contents' : BagId → Histogram α}

/-- The intervals of a view let the element of a stored entry through if the view shows it. -/
theorem any_listing {e : Entry α} (he : e ∈ (contents v.root.bag).entries) :
    ((v.listing contents).any fun f => (v.root.comparator.compare f.element e.element).isEq) =
      v.admits e.element := by
  rw [Bool.eq_iff_iff, List.any_eq_true]
  constructor
  · rintro ⟨f, hf, hfe⟩
    rw [Ordering.isEq_iff_eq_eq] at hfe
    rw [← v.admits_congr ((v.order_compare_eq_iff _ _).mpr hfe)]
    exact (mem_listing.mp hf).2
  · intro hadm
    exact ⟨e, mem_listing.mpr ⟨he, hadm⟩, by rw [Comparator.compare_self]; rfl⟩

/-- What a view shows of a stored entry: all of its occurrences, or none. -/
theorem tally_listing (hv : (contents v.root.bag).Valid v.root.comparator) {e : Entry α}
    (he : e ∈ (contents v.root.bag).entries) :
    v.root.comparator.tally (v.listing contents) e.element =
      if v.admits e.element then e.count else 0 := by
  have horder : v.root.comparator.tally (v.listing contents) e.element =
      v.order.tally (v.listing contents) e.element := by
    unfold Comparator.tally
    simp only [order_eq, Comparator.isEq_towards]
  have hfind : (contents v.root.bag).find? v.root.comparator e.element = some e :=
    Comparator.find?_eq_some hv.sorted he (Comparator.compare_self _ _)
  rw [horder, Comparator.tally_eq _ (pairwise_listing hv.sorted), find?_listing hv.sorted, hfind]
  cases v.admits e.element <;> rfl

/-- To raise the counts by what the view shows doubles what it shows. -/
theorem raised_listing (hv : (contents v.root.bag).Valid v.root.comparator) :
    Histogram.raised v.root.comparator ((v.listing contents).flatMap Entry.occurrences)
        (contents v.root.bag).entries =
      (contents v.root.bag).entries.map
        (Entry.doubledIn v.root.comparator (v.listing contents)) := by
  refine List.map_congr_left fun e he => ?_
  rw [Comparator.countP_occurrences, tally_listing hv he, Entry.doubledIn, any_listing he]
  cases v.admits e.element with
  | true => rw [if_pos rfl, if_pos rfl, Nat.two_mul]
  | false => rfl

/-- And then the view shows every entry with twice its count. -/
theorem listing_doubled (h : (contents' v.root.bag).entries =
      (contents v.root.bag).entries.map
        (Entry.doubledIn v.root.comparator (v.listing contents))) :
    v.listing contents' = (v.listing contents).map fun e => ⟨e.element, 2 * e.count⟩ := by
  have hfilter : ((contents' v.root.bag).entries.filter fun e => v.admits e.element) =
      ((contents v.root.bag).entries.filter fun e => v.admits e.element).map
        fun e => ⟨e.element, 2 * e.count⟩ := by
    rw [h, List.filter_map]
    simp only [Function.comp_def, Entry.element_doubledIn]
    refine List.map_congr_left fun e he => ?_
    obtain ⟨hmem, hadm⟩ := List.mem_filter.mp he
    rw [Entry.doubledIn, any_listing hmem, if_pos hadm]
  rw [listing_eq, hfilter, listing_eq contents]
  cases v.facing with
  | ascending => rfl
  | descending => exact List.map_reverse.symm

/-- The occurrences that a view shows can be inserted into its own source, while they are visited,
if twice each of their counts is a count. -/
theorem extend_listing {reg : Registry α} (hs : reg.Sound) (hh : reg.Houses (.source v.root))
    (hu : v.Usable reg) (hcounts : ∀ e ∈ v.listing reg.contents, e.count ≤ maxCount / 2) :
    ∃ o reg', v.occurrences reg = .ok o ∧ v.root.Drains o reg reg' ∧
      (v.root.extend ((v.listing reg.contents).flatMap Entry.occurrences)).perform reg =
        (.ok (), reg') ∧
      reg'.contents v.root.bag =
        ⟨(reg.contents v.root.bag).entries.map
            (Entry.doubledIn v.root.comparator (v.listing reg.contents)),
          wrap ((reg.contents v.root.bag).total + totalCount (v.listing reg.contents))⟩ ∧
      ∀ b, b ≠ v.root.bag → reg'.contents b = reg.contents b := by
  obtain ⟨t, hscan, hfits, hrem⟩ := scan_spec hu .ascending
  have hrem : t.remaining reg.contents = v.listing reg.contents := hrem
  have hthere (x : α) (hx : x ∈ (v.listing reg.contents).flatMap Entry.occurrences) :
      ∃ e ∈ (reg.contents v.root.bag).entries,
        v.root.comparator.compare e.element x = .eq := by
    obtain ⟨e, he, hx⟩ := List.mem_flatMap.mp hx
    obtain rfl : x = e.element := List.eq_of_mem_replicate hx
    exact ⟨e, (mem_listing.mp he).1, Comparator.compare_self _ _⟩
  have hroom : ∀ e ∈ Histogram.raised v.root.comparator
      ((v.listing reg.contents).flatMap Entry.occurrences) (reg.contents v.root.bag).entries,
      e.count ≤ maxCount := by
    rw [raised_listing hu.valid]
    intro f hf
    obtain ⟨e, he, rfl⟩ := List.mem_map.mp hf
    rw [Entry.doubledIn, any_listing he]
    split
    next hadm =>
      have hcount := hcounts e (mem_listing.mpr ⟨he, hadm⟩)
      simp only
      omega
    next => exact (hu.valid.counts e he).2
  obtain ⟨reg', hextend, hcontents, hothers⟩ := Source.extend_raises hs hh hthere hroom
  refine ⟨.begin t, reg', ?_, ?_, hextend, ?_, hothers⟩
  · rw [occurrences, hscan]
    rfl
  · refine Source.drains_of_extend ⟨hfits, ?_⟩ (scan_agrees (fun _ => rfl) hscan)
      (Occurrences.hasPassed_begin _ t) ?_
    · intro e he
      have he : e ∈ t.remaining reg.contents := he
      rw [hrem] at he
      exact (hu.valid.counts e (mem_listing.mp he).1).1
    · rw [Occurrences.remaining_begin, hrem]
      exact hextend
  · rw [hcontents, raised_listing hu.valid, length_occurrences]

end View

/-! ## In a run -/

namespace Session

variable [Ord α] [TransOrd α] [Shown α] {s s' : Session α} {b : Source α} {name : String}

/-- What a view of `b` showed, the entries `es`, is doubled from the session `s` to `s'`. -/
structure Doubled (s : Session α) (b : Source α) (name : String) (es : List (Entry α))
    (s' : Session α) : Prop where
  /-- The counts of the entries that were shown are doubled. The other entries are as they were, and
  none is new. -/
  entries : (s'.registry.contents b.bag).entries =
    (s.registry.contents b.bag).entries.map (Entry.doubledIn b.comparator es)
  /-- The total grows by what was shown. -/
  total : (s'.registry.contents b.bag).total = (s.registry.contents b.bag).total + totalCount es
  /-- No other bag changes. -/
  others : ∀ bag, bag ≠ b.bag → s'.registry.contents bag = s.registry.contents bag
  /-- The view shows every entry with twice its count. -/
  shown : s'.watch name = some (.ok (es.map fun e => ⟨e.element, 2 * e.count⟩))

omit [Ord α] [TransOrd α] [Shown α] in
theorem watch_bag {v : View α} (h : s.table.find? name = some (.bag v)) :
    s.watch name = some (v.entries s.registry) := by
  unfold watch
  rw [h]

/-- A source that is extended by a view of its own ends up with the counts doubled that the view
shows. The loop comes to an end without a failure, though it walks what it changes. -/
theorem absorb_doubles (hs : s.Reachable) (hname : s.table.find? name = some (.bag (.source b)))
    {view : String} {v : View α} (hview : s.table.find? view = some (.bag v)) (hroot : v.root = b)
    {es : List (Entry α)} (hes : v.entries s.registry = .ok es)
    (hcounts : ∀ e ∈ es, e.count ≤ maxCount / 2)
    (htotal : (s.registry.contents b.bag).total + totalCount es ≤ maxCount)
    (watched : List String) :
    (s.step watched (.change name (.absorb view))).1.outcome = .ok .done ∧
      s.Doubled b view es (s.step watched (.change name (.absorb view))).2 ∧
      ((s.step watched (.change name (.absorb view))).2.registry.contents b.bag).total ≤ maxCount ∧
      ∃ o reg, v.occurrences s.fresh = .ok o ∧ b.Drains o s.fresh reg ∧
        (s.step watched (.change name (.absorb view))).2 =
          ⟨s.table, reg.release s.table.held⟩ := by
  subst hroot
  have hh := (hs.sound.live.find? hname).1
  have hu := hs.sound.registry.usable (hs.sound.live.find? hview).1 (View.canReach_of_entries hes)
  have hlisting := hes
  rw [View.entries_eq hu] at hlisting
  obtain rfl : v.listing s.registry.contents = es := Except.ok.inj hlisting
  obtain ⟨o, reg, ho, hdrains, hextend, hcontents, hothers⟩ :=
    View.extend_listing hs.sound.fresh (hh.moves s.moves_fresh) (hu.withLog []) hcounts
  have hwatch : s.watch view = some (.ok (v.listing s.registry.contents)) := by
    rw [watch_bag hview, hes]
  have hrun : ((Change.absorb view).run s.table v.root).perform s.fresh = (.ok .done, reg) :=
    (Change.absorb_run_eq hs.sound hh hwatch).trans (perform_bind_ok hextend)
  obtain ⟨hout, hafter⟩ := step_change hname hrun watched
  have hreg : (s.step watched (.change name (.absorb view))).2.registry.contents =
      reg.contents := by
    rw [hafter, Registry.contents_release]
  have hshown : (s.step watched (.change name (.absorb view))).2.watch view =
      some (.ok ((v.listing s.registry.contents).map fun e => ⟨e.element, 2 * e.count⟩)) := by
    have htable : (s.step watched (.change name (.absorb view))).2.table = s.table := by
      rw [hafter]
    have hlater := (hs.next (c := .change name (.absorb view)) trivial watched).sound
    have hspares := hs.spares (c := .change name (.absorb view)) trivial watched fun i hi => by
      rw [htable]
      exact hi
    have hview' := (congrArg (fun t => Table.find? t view) htable).trans hview
    have hu' := hlater.registry.usable (hlater.live.find? hview').1
      (Registry.canReach_of_spares hu.reach hspares)
    have hdoubled : v.listing reg.contents =
        (v.listing s.registry.contents).map fun e => ⟨e.element, 2 * e.count⟩ :=
      View.listing_doubled (congrArg Histogram.entries hcontents)
    rw [watch_bag hview', View.entries_eq hu', hreg, hdoubled]
  have hafterwards : (reg.contents v.root.bag).total =
      (s.registry.contents v.root.bag).total + totalCount (v.listing s.registry.contents) := by
    rw [hcontents]
    exact wrap_of_le htotal
  refine ⟨hout, ⟨?_, ?_, ?_, hshown⟩, ?_, o, reg, ho, hdrains, hafter⟩
  · rw [hreg, hcontents]
    rfl
  · rw [hreg, hafterwards]
  · intro bag hbag
    rw [hreg]
    exact hothers bag hbag
  · rw [hreg, hafterwards]
    exact htotal

theorem absorb_doubles_threeHead :
    (threeHead.step [] (.change "s" (.absorb "v"))).1.outcome = .ok .done ∧
      threeHead.Doubled ⟨0, 0, ⟨0, .natural, false⟩, .indexed⟩ "v" [⟨5, 1⟩, ⟨3, 1⟩]
        (threeHead.step [] (.change "s" (.absorb "v"))).2 ∧
      (threeHead.step [] (.change "s" (.absorb "v"))).2.watch "s" =
        some (.ok [⟨1, 1⟩, ⟨3, 2⟩, ⟨5, 2⟩]) := by
  let b : Source Int := ⟨0, 0, ⟨0, .natural, false⟩, .indexed⟩
  let v : View Int := .descending (some 3) .strong (.range (some 2) b (.downTo ⟨3, .inclusive⟩))
  have hs : threeHead.table.find? "s" = some (.bag (.source b)) := rfl
  have hv : threeHead.table.find? "v" = some (.bag v) := rfl
  have hes : v.entries threeHead.registry = .ok [⟨5, 1⟩, ⟨3, 1⟩] := rfl
  obtain ⟨hout, hdoubled, -⟩ := absorb_doubles threeHead_reachable hs hv rfl hes (by decide)
    (by decide) []
  exact ⟨hout, hdoubled, rfl⟩

end Session

end OrderedBag
