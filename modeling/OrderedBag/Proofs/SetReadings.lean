import OrderedBag.Proofs.Exploring
import OrderedBag.Proofs.Lifetimes
import OrderedBag.Proofs.Readings

/-!
# Asking element sets

A set that a name stands for can be asked everything as long as every reference on the way down from
its view leads somewhere. Its answers are then decided by two things, the order of its view and the
entries that the view shows, and so are the sets that are derived from it.

* `Session.Offers` — a set that can be asked
* `Session.Offers.reads`, `Session.Offers.declines` — what it answers, and what it has no answer for
* `View.Leaves` — what a sequence of steps leaves of a view
* `Session.Offers.derives` — a step that is not refused leads to such a set, which can be asked in
  turn
-/

namespace OrderedBag

open OrderedBag.Action

variable {α : Type}

/-! ## What steps leave -/

theorem Direction.map_orient {β : Type} (f : α → β) (d : Direction) (l : List α) :
    (d.orient l).map f = d.orient (l.map f) := by
  cases d with
  | ascending => rfl
  | descending => exact List.map_reverse

namespace View

variable {v w w' : View α} {path path' : List (ViewStep α)}

/-- The steps leave of the view `v` what `w` shows: what satisfies the bounds of all steps, in the
direction and by the order that the steps leave. -/
structure Leaves (v : View α) (path : List (ViewStep α)) (w : View α) : Prop where
  root : w.root = v.root
  order : w.order = v.order.towards (ViewStep.heading path)
  listing : ∀ contents, w.listing contents = (ViewStep.heading path).orient
    ((v.listing contents).filter fun e => ViewStep.satisfies v.order path e.element)

/-- No step leaves everything. -/
theorem Leaves.refl (v : View α) : v.Leaves [] v where
  root := rfl
  order := rfl
  listing _ := (List.filter_eq_self.mpr fun _ _ => rfl).symm

/-- What further steps leave of what steps have left. -/
theorem Leaves.trans (h : v.Leaves path w) (h' : w.Leaves path' w') :
    v.Leaves (path ++ path') w' where
  root := h'.root.trans h.root
  order := by rw [h'.order, h.order, ViewStep.towards_heading_append]
  listing contents := by
    rw [h'.listing, h.listing, h.order, Direction.filter_orient, List.filter_filter,
      ViewStep.orient_heading_append]
    simp only [ViewStep.satisfies_append, Bool.and_comm]

theorem Leaves.enroll (h : v.Leaves path w) (reg : Registry α) :
    v.Leaves path (reg.enroll w).1 where
  root := (Registry.root_enroll reg w).trans h.root
  order := (Registry.order_enroll reg w).trans h.order
  listing contents := (Registry.listing_enroll reg w contents).trans (h.listing contents)

theorem leaves_narrowed (v : View α) (st : ViewStep α) (hst : st.turns = false) :
    v.Leaves [st] (v.narrowed st.interval) := by
  have hheading : ViewStep.heading [st] = .ascending := by
    rw [ViewStep.heading_cons, hst]
    rfl
  refine ⟨root_narrowed v _, ?_, fun contents => ?_⟩
  · rw [order_narrowed, hheading]
    rfl
  · rw [listing_narrowed, hheading]
    simp only [ViewStep.satisfies, Bool.and_true]
    rfl

/-- Reversing leaves of a view what shows it backwards. -/
theorem leaves_reversed_iff :
    v.Leaves [.reversed] w ↔ w.root = v.root ∧ w.order = v.order.reversed ∧
      ∀ contents, w.listing contents = (v.listing contents).reverse := by
  have hall (contents : BagId → Histogram α) :
      ((v.listing contents).filter fun e => ViewStep.satisfies v.order [.reversed] e.element) =
        v.listing contents := List.filter_eq_self.mpr fun _ _ => rfl
  constructor
  · intro h
    exact ⟨h.root, h.order, fun contents => by rw [h.listing, hall]; rfl⟩
  · rintro ⟨hroot, horder, hlisting⟩
    exact ⟨hroot, horder, fun contents => by rw [hlisting, hall]; rfl⟩

end View

/-- A range is not refused unless its ends are crossed. -/
theorem ViewStep.refused_sub {c : Comparator α} {lo hi : Endpoint α}
    (h : c.compare lo.element hi.element ≠ .gt) : (ViewStep.sub lo hi).refused c = false := by
  rw [ViewStep.refused, Interval.between?, if_neg h]
  rfl

/-- The view that a step asks an element set for is what the step leaves. -/
theorem ElementStep.Makes.leaves {s t : ElementSet α} {st : ElementStep α} (h : st.Makes s t) :
    s.view.Leaves [st.onView] t.view := by
  cases st with
  | head hi =>
    obtain rfl := h
    exact s.view.leaves_narrowed (.head hi) rfl
  | tail lo =>
    obtain rfl := h
    exact s.view.leaves_narrowed (.tail lo) rfl
  | sub lo hi =>
    obtain rfl := h
    exact s.view.leaves_narrowed (.sub lo hi) rfl
  | descending =>
    obtain rfl := h
    exact View.leaves_reversed_iff.mpr ⟨rfl, rfl, fun _ => rfl⟩

/-- The elements of a set, in order. -/
def ElementSet.members (u : ElementSet α) (contents : BagId → Histogram α) : List α :=
  (u.view.listing contents).map Entry.element

/-- Steps leave of the elements of a set those that satisfy their bounds. -/
theorem View.Leaves.members {u w : ElementSet α} {path : List (ViewStep α)}
    (h : u.view.Leaves path w.view) (contents : BagId → Histogram α) :
    w.members contents = (ViewStep.heading path).orient
      ((u.members contents).filter (ViewStep.satisfies u.view.order path)) := by
  rw [ElementSet.members, h.listing, Direction.map_orient, ElementSet.members, List.filter_map]
  rfl

namespace Registry

/-- A new node is no reference: whoever has one can reach what could be reached without. -/
theorem canReach_enroll {reg : Registry α} {v : View α} (h : reg.Supports v) (reg' : Registry α) :
    reg'.canReach (reg.enroll v).1 = reg'.canReach v := by
  induction v with
  | source s => rfl
  | range n s r => cases n <;> rfl
  | descending n link f ih =>
    cases n with
    | some i => rfl
    | none =>
      cases link with
      | strong => exact ih h
      | weak => exact h.elim

/-- Derived sets refer strongly to what they are derived from. -/
theorem canReach_of_makes {reg : Registry α} {s t : ElementSet α} {st : ElementStep α}
    (h : st.Makes s t) (hreach : reg.canReach s.view = true) : reg.canReach t.view = true := by
  cases st with
  | head hi => exact h ▸ View.canReach_narrowed reg s.view _
  | tail lo => exact h ▸ View.canReach_narrowed reg s.view _
  | sub lo hi => exact h ▸ View.canReach_narrowed reg s.view _
  | descending =>
    obtain rfl := h
    exact hreach

end Registry

namespace Session

variable {s : Session α} {set : String} {u : ElementSet α}

/-! ## Sets that can be asked -/

/-- The name stands for a set that can be asked everything: every reference on the way down leads
somewhere, and the source can be reached from its views. -/
structure Offers (s : Session α) (set : String) (u : ElementSet α) : Prop where
  named : s.table.find? set = some (.elements u)
  reach : s.registry.canReach u.view = true
  attached : u.view.root.access ≠ .detached

theorem Offers.intact (h : s.Offers set u) (hs : s.Sound) : u.Intact s.fresh := by
  have hl : s.fresh.Live u.view := hs.live_fresh.find? h.named
  have hreach : s.fresh.canReach u.view = true :=
    (Registry.canReach_withLog s.registry [] u.view).trans h.reach
  exact ⟨⟨hl.1, hreach, h.attached⟩, View.follow_eq_ok hl h.attached u.link⟩

theorem Offers.usable (h : s.Offers set u) (hs : s.Sound) : u.view.Usable s.registry :=
  hs.registry.usable (hs.live.find? h.named).1 h.reach

/-- The elements of a set come in its order, and no two of them compare equal. -/
theorem Offers.pairwise_members (h : s.Offers set u) (hs : s.Sound) :
    (u.members s.registry.contents).Pairwise fun a b => u.view.order.compare a b = .lt :=
  List.pairwise_map.mpr (View.pairwise_listing (h.usable hs).valid.sorted)

variable [Ord α] [Std.TransOrd α] [Shown α]

/-! ## Comparators -/

/-- Making this, under any name, hands out the comparator. -/
def HandsOut (s : Session α) (m : Making α) (c : Comparator α) : Prop :=
  ∀ new watched, (s.step watched (.bind new m)).1.outcome = .ok .done ∧
    (s.step watched (.bind new m)).2.table.find? new = some (.comparator c)

theorem handsOut_of_gives {m : Making α} {c : Comparator α}
    (h : (m.run s.table).Gives s.fresh (.ok (.comparator c)) s.registry.contents) :
    s.HandsOut m c := by
  intro new watched
  have hbind : ((Command.bind new m).run s.table).Gives s.fresh
      (.ok (.done, s.table.bind new (.comparator c))) s.registry.contents :=
    h.map fun handle => (Answer.done, s.table.bind new handle)
  obtain ⟨hout, htable, -⟩ := step_of_gives watched hbind
  exact ⟨hout, by rw [htable]; exact Table.find?_bind_self s.table new _⟩

/-- A bag that can be reached hands out its order. -/
theorem Sound.handsOut (hs : s.Sound) {name : String} {v : View α}
    (hname : s.table.find? name = some (.bag v)) (hreach : s.registry.canReach v = true) :
    s.HandsOut (.comparatorOf name) v.order := by
  have hreach' : s.fresh.canReach v = true :=
    (Registry.canReach_withLog s.registry [] v).trans hreach
  have hcomp := View.comparator_gives hs.fresh (hs.live_fresh.find? hname).1 hreach'
  exact handsOut_of_gives (.after (Table.perform_bag hname s.fresh) (hcomp.map Handle.comparator))

/-! ## Answers -/

/-- The command fails so, and changes neither a name nor a bag. -/
def Declines (s : Session α) (c : Command α) (e : Failure) : Prop :=
  ∀ watched, (s.step watched c).1.outcome = .error e ∧
    (s.step watched c).2.table = s.table ∧
    (s.step watched c).2.registry.contents = s.registry.contents

namespace Offers

variable (h : s.Offers set u) (hs : s.Sound)
include h hs

/-- The set hands out the order of its view. -/
theorem handsOut : s.HandsOut (.comparatorOfElements set) u.view.order := by
  have hu := h.intact hs
  have hcomp := View.comparator_gives hs.fresh hu.view.houses hu.view.reach
  have hset : u.comparator.Gives s.fresh (.ok u.view.order) s.registry.contents :=
    .after (ElementSet.perform_bag hu.follow) hcomp
  exact handsOut_of_gives
    (.after (Table.perform_elements h.named s.fresh) (hset.map Handle.comparator))

/-- The bag behind the set is the view itself. -/
theorem bag_of_elements (watched : List String) (new : String) :
    (s.step watched (.bind new (.bagOfElements set))).1.outcome = .ok .done ∧
      (s.step watched (.bind new (.bagOfElements set))).2.table =
        s.table.bind new (.bag u.view) := by
  have hu := h.intact hs
  have hmake : ((Making.bagOfElements set).run s.table).perform s.fresh =
      (.ok (.bag u.view), s.fresh) := by
    refine (perform_bind_ok (Table.perform_elements h.named s.fresh)).trans ?_
    refine (perform_bind_ok (ElementSet.perform_bag hu.follow)).trans ?_
    exact perform_bind_ok (View.perform_enroll hu.view.houses)
  obtain ⟨hout, hafter⟩ := step_of_ok watched (c := .bind new (.bagOfElements set))
    (perform_bind_ok hmake)
  exact ⟨hout, congrArg Session.table hafter⟩

/-- A question by which no element goes is answered by the order of the set and its entries. -/
theorem replies {q : ElementQuery α} {o : Except Failure (Answer α)}
    (hvictim : q.victim u.view.order (u.view.listing s.registry.contents) = none)
    (hanswer : q.answer u.view.order (u.view.listing s.registry.contents)
      (u.view.vacant s.registry.contents) = o)
    (watched : List String) :
    (s.step watched (.askElements set q)).1.outcome = o ∧
      (s.step watched (.askElements set q)).2.table = s.table ∧
      (s.step watched (.askElements set q)).2.registry.contents = s.registry.contents := by
  have hrun : (q.run u).Gives s.fresh o s.registry.contents := by
    have hgives := q.run_gives hs.fresh (h.intact hs)
    have hcontents : s.fresh.contents = s.registry.contents := rfl
    rw [hcontents, hvictim, hanswer] at hgives
    exact hgives
  exact step_of_answer (.after (Table.perform_elements h.named s.fresh)
    (hrun.map fun a => (a, s.table))) watched

theorem reads {q : ElementQuery α} {answer : Answer α}
    (hvictim : q.victim u.view.order (u.view.listing s.registry.contents) = none)
    (hanswer : q.answer u.view.order (u.view.listing s.registry.contents)
      (u.view.vacant s.registry.contents) = .ok answer) :
    s.Reads (.askElements set q) answer :=
  h.replies hs hvictim hanswer

theorem declines {q : ElementQuery α} {e : Failure}
    (hvictim : q.victim u.view.order (u.view.listing s.registry.contents) = none)
    (hanswer : q.answer u.view.order (u.view.listing s.registry.contents)
      (u.view.vacant s.registry.contents) = .error e) :
    s.Declines (.askElements set q) e :=
  h.replies hs hvictim hanswer

/-- Going up, the elements are listed as they are, and going down in reverse. -/
theorem reads_elements (d : Direction) :
    s.Reads (.askElements set (.elements d))
      (.elements (d.orient (u.members s.registry.contents))) :=
  h.reads hs rfl (congrArg (Except.ok ∘ Answer.elements) (Direction.map_orient _ d _))

theorem reads_size :
    s.Reads (.askElements set .size) (.number (u.members s.registry.contents).length) := by
  rw [ElementSet.members, List.length_map]
  exact h.reads hs rfl rfl

/-- The set is empty if no element is listed, unless the question is misled. Then the set says that
it is empty, and there are elements. -/
theorem reads_isEmpty (hquiet : ¬ s.Misled (.askElements set .isEmpty)) :
    s.Reads (.askElements set .isEmpty) (.flag (u.members s.registry.contents).isEmpty) := by
  have hprobed : (Command.askElements set .isEmpty).probed? s.table = some u.view :=
    Command.probed?_askElements.mpr ⟨rfl, u, h.named, rfl⟩
  rw [ElementSet.members, List.isEmpty_map]
  exact h.reads hs rfl ((hs.tellsDue_vacant hprobed).quiet hquiet)

theorem misread_isEmpty (hmisled : s.Misled (.askElements set .isEmpty)) :
    u.members s.registry.contents ≠ [] ∧
      s.Reads (.askElements set .isEmpty) (.flag true) := by
  have hprobed : (Command.askElements set .isEmpty).probed? s.table = some u.view :=
    Command.probed?_askElements.mpr ⟨rfl, u, h.named, rfl⟩
  obtain ⟨htold, hdue⟩ := (hs.tellsDue_vacant hprobed).misled hmisled
  refine ⟨fun hnil => ?_, h.reads hs rfl htold⟩
  have hlisting : u.view.listing s.registry.contents = [] := List.map_eq_nil_iff.mp hnil
  rw [hlisting] at hdue
  cases hdue

/-- The element at one end of the list. -/
theorem reads_extreme {d : Direction} {x : α}
    (hx : d.extreme? (u.members s.registry.contents) = some x) :
    s.Reads (.askElements set (.extreme d)) (.element x) := by
  have hmap : (d.extreme? (u.view.listing s.registry.contents)).map Entry.element = some x := by
    rw [← hx]
    cases d with
    | ascending => exact List.head?_map.symm
    | descending => exact List.getLast?_map.symm
  obtain ⟨e, he, rfl⟩ := Option.map_eq_some_iff.mp hmap
  refine h.reads hs rfl ?_
  rw [ElementQuery.answer, he]

theorem declines_extreme (d : Direction) (hnil : u.members s.registry.contents = []) :
    s.Declines (.askElements set (.extreme d)) .noSuchElement := by
  have hlisting : u.view.listing s.registry.contents = [] := List.map_eq_nil_iff.mp hnil
  refine h.declines hs rfl ?_
  rw [ElementQuery.answer, hlisting]
  cases d <;> rfl

/-! ## Derived sets -/

/-- A step that is not refused succeeds, and the bags stay as they are. -/
theorem outcome_derived (st : ElementStep α) (hst : st.onView.refused u.view.order = false)
    (watched : List String) (new : String) :
    (s.step watched (.bind new (.elements set st))).1.outcome = .ok .done ∧
      (s.step watched (.bind new (.elements set st))).2.registry.contents =
        s.registry.contents := by
  have hu := h.intact hs
  obtain ⟨t, l, hrun⟩ := ElementStep.run_answers (hu.view.usable hs.fresh) hu hst
  have hmake : ((Making.elements set st).run s.table).perform s.fresh =
      (.ok (.elements { t with view := ((s.fresh.withLog l).enroll t.view).1 }),
        ((s.fresh.withLog l).enroll t.view).2) :=
    (perform_bind_ok (Table.perform_elements h.named s.fresh)).trans (perform_bind_ok hrun)
  obtain ⟨hout, hafter⟩ := step_of_ok watched (c := .bind new (.elements set st))
    (perform_bind_ok hmake)
  refine ⟨hout, ?_⟩
  rw [hafter, Registry.contents_release, Registry.contents_enroll]
  rfl

end Offers

/-- What a step that succeeded has made of a set. -/
theorem Sound.derived (hs : s.Sound) (hset : s.table.find? set = some (.elements u))
    {st : ElementStep α} {new : String} {answer : Answer α} {watched : List String}
    (h : (s.step watched (.bind new (.elements set st))).1.outcome = .ok answer) :
    ∃ w, (s.step watched (.bind new (.elements set st))).2.table =
        s.table.bind new (.elements w) ∧
      u.view.Leaves [st.onView] w.view ∧
      ∀ reg : Registry α, reg.canReach u.view = true → reg.canReach w.view = true := by
  obtain ⟨w, reg, -, hsup, hmakes, -, htable⟩ := elements_of_outcome hs hset h
  refine ⟨_, htable, hmakes.leaves.enroll reg, fun reg' hreach => ?_⟩
  exact (Registry.canReach_enroll hsup reg').trans (Registry.canReach_of_makes hmakes hreach)

/-- What a name stands for is what it stood for before another name was bound, and no view is gone
by that if the other name was free. -/
theorem Offers.bind (h : s.Offers set u) (hs : s.Reachable) {c : Command α} (hc : c.Valid)
    {watched : List String} {new : String} {handle : Handle α}
    (hnew : s.table.find? new = none)
    (htable : (s.step watched c).2.table = s.table.bind new handle) :
    (s.step watched c).2.Offers set u := by
  have hne : set ≠ new := by
    rintro rfl
    cases hnew.symm.trans h.named
  have hspares := hs.spares hc watched fun i hi => by
    rw [htable]
    exact Table.mem_held_bind hnew handle hi
  refine ⟨?_, Registry.canReach_of_spares h.reach hspares, h.attached⟩
  rw [htable, Table.find?_bind_of_ne _ hne, h.named]

/-- A step that is not refused gives a free name to what it leaves of the set, and both sets can be
asked afterwards. -/
theorem Offers.derives (h : s.Offers set u) (hs : s.Reachable) (st : ElementStep α)
    (hst : st.onView.refused u.view.order = false) {new : String}
    (hnew : s.table.find? new = none) (watched : List String) :
    ∃ w, (s.step watched (.bind new (.elements set st))).1.outcome = .ok .done ∧
      (s.step watched (.bind new (.elements set st))).2.Offers set u ∧
      (s.step watched (.bind new (.elements set st))).2.Offers new w ∧
      (s.step watched (.bind new (.elements set st))).2.registry.contents =
        s.registry.contents ∧
      u.view.Leaves [st.onView] w.view := by
  obtain ⟨hdone, hcontents⟩ := h.outcome_derived hs.sound st hst watched new
  obtain ⟨w, htable, hleaves, hreach⟩ := hs.sound.derived h.named hdone
  have hold := h.bind hs (c := .bind new (.elements set st)) trivial hnew htable
  refine ⟨w, hdone, hold, ⟨?_, hreach _ hold.reach, hleaves.root ▸ h.attached⟩, hcontents, hleaves⟩
  rw [htable]
  exact Table.find?_bind_self s.table new _

end Session

end OrderedBag
