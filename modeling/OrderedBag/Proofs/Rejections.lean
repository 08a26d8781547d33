import OrderedBag.Proofs.BothEnds
import OrderedBag.Proofs.DoubleReversal
import OrderedBag.Proofs.Overflow
import OrderedBag.Proofs.SetReadings

/-!
# Refused ranges

A range is refused exactly when its lower end is ordered after its upper end, in the order of the
bag or the set that is asked. Where the bag itself ends does not matter: a range beside it, or one
between equal endpoints, is merely empty. The endpoints of a descending view change places on the
way down, once for every reversal, and are compared where the source is; by then they have changed
places as often as the order was turned.

* `View.sub_refused` — what a refusal does, through any number of descending views
* `Session.Refuses` — a refused command leaves one record in the log, and no other trace
* `Session.RefusesWhen` — which requests are refused, and that all others succeed
* `Session.sub_refused_iff_crossed` — the ranges of bags, of their element sets and of their
  descending views
-/

namespace OrderedBag

open OrderedBag.Action

variable {α : Type}

/-! ## Refusals -/

theorem Action.between_refused {c : Comparator α} {lo hi : Endpoint α}
    (h : c.compare lo.element hi.element = .gt) (reg : Registry α) :
    (Action.between c lo hi).perform reg = (.error .invalidRange, reg.record .rejectedRange) := by
  unfold Action.between Interval.between?
  rw [if_pos h]
  rfl

namespace View

variable {reg : Registry α} {v w : View α}

/-- Crossed endpoints are refused before anything is built. -/
theorem sub_refused (hreach : reg.canReach v = true) {lo hi : Endpoint α}
    (h : v.order.compare lo.element hi.element = .gt) :
    (v.sub lo hi).perform reg = (.error .invalidRange, reg.record .rejectedRange) := by
  induction v generalizing lo hi with
  | source s => exact perform_bind_error (between_refused h reg)
  | range n s r => exact perform_bind_error (between_refused h reg)
  | descending n link f ih =>
    have hfollow : reg.follow link f = .ok () ∧ reg.canReach f = true := by
      cases link with
      | strong => exact ⟨rfl, hreach⟩
      | weak =>
        rw [Registry.canReach, Bool.and_eq_true] at hreach
        exact ⟨by rw [Registry.follow_weak, if_pos hreach.1], hreach.2⟩
    -- the view behind is asked for the endpoints the other way around
    have hback : f.order.compare hi.element lo.element = .gt := by
      rwa [order, Comparator.reversed_compare] at h
    exact (perform_bind_ok (perform_follow_ok hfollow.1)).trans
      (perform_bind_error (ih hfollow.2 hback))

theorem canUpgrade_of_live (hl : reg.Live v) (hatt : v.root.access ≠ .detached) :
    reg.canUpgrade v = true := by
  rw [Registry.canUpgrade, hl.2, isDetached_eq_false hatt]
  rfl

theorem Reverses.order (h : v.Reverses w) : w.order = v.order.reversed := by
  rcases h with ⟨n, link, rfl⟩ | ⟨-, j, rfl⟩
  · exact (Comparator.reversed_reversed _).symm
  · rfl

/-- As long as a view exists, its descending view can be reached from it. -/
theorem Reverses.canReach (h : v.Reverses w) (hl : reg.Live v) (hreach : reg.canReach v = true)
    (hatt : v.root.access ≠ .detached) : reg.canReach w = true := by
  rcases h with ⟨n, link, rfl⟩ | ⟨-, j, rfl⟩
  · cases link with
    | strong => exact hreach
    | weak =>
      rw [Registry.canReach, Bool.and_eq_true] at hreach
      exact hreach.2
  · rw [Registry.canReach, canUpgrade_of_live hl hatt, hreach]
    rfl

end View

theorem ElementSet.sub_refused {reg : Registry α} {u : ElementSet α}
    (hfollow : reg.follow u.link u.view = .ok ()) (hreach : reg.canReach u.view = true)
    {lo hi : Endpoint α} (h : u.view.order.compare lo.element hi.element = .gt) :
    (u.sub lo hi).perform reg = (.error .invalidRange, reg.record .rejectedRange) :=
  (perform_bind_ok (perform_bag hfollow)).trans
    (perform_bind_error (View.sub_refused hreach h))

/-! ## Empty ranges -/

/-- Equal endpoints of which one is excluded leave no room between them. -/
theorem Interval.isEmpty_of_eq {c : Comparator α} {lo hi : Endpoint α}
    (heq : c.compare lo.element hi.element = .eq)
    (hedge : lo.edge = .exclusive ∨ hi.edge = .exclusive) :
    (⟨some lo, some hi⟩ : Interval α).isEmpty c = true := by
  simp only [isEmpty, heq, Bool.or_eq_true, beq_iff_eq]
  exact hedge

namespace View

/-- A range shows nothing if no element that the view lets through lies in its interval. -/
theorem filter_eq_nil_of_disjoint {v : View α} {q : Interval α} (contents : BagId → Histogram α)
    (h : ∀ x, v.admits x = true → q.contains v.order x = false) :
    ((v.listing contents).filter fun e => q.contains v.order e.element) = [] := by
  refine List.filter_eq_nil_iff.mpr fun e he => ?_
  rw [h e.element (mem_listing.mp he).2]
  exact Bool.false_ne_true

end View

namespace Session

variable {s : Session α} {name : String} {v : View α}

theorem Sound.intact (hs : s.Sound) (hname : s.table.find? name = some (.bag v))
    (hreach : s.registry.canReach v = true) (hatt : v.root.access ≠ .detached) :
    v.Intact s.fresh :=
  ⟨(hs.live_fresh.find? hname).1, (Registry.canReach_withLog s.registry [] v).trans hreach, hatt⟩

variable [Ord α] [Std.TransOrd α] [Shown α]

/-! ## Refused commands -/

/-- The command is refused: the log tells of the endpoints, and nothing else is new. No view has
been built, none is gone, and no bag has changed. -/
def Refuses (s : Session α) (c : Command α) : Prop :=
  ∀ watched, (s.step watched c).1.outcome = .error .invalidRange ∧
    (s.step watched c).1.log = [.rejectedRange] ∧
    (s.step watched c).2 = ⟨s.table, s.registry.withLog [.rejectedRange]⟩

/-- A request for something new is refused under this condition, and otherwise succeeds. -/
def RefusesWhen (s : Session α) (m : Making α) (crossed : Prop) : Prop :=
  ∀ new, (crossed → s.Refuses (.bind new m)) ∧
    (¬ crossed → ∀ watched, (s.step watched (.bind new m)).1.outcome = .ok .done)

/-- Nothing is left to release after a refusal. -/
theorem Reachable.refuses (hs : s.Reachable) {c : Command α}
    (h : (c.run s.table).perform s.fresh = (.error .invalidRange, s.fresh.record .rejectedRange)) :
    s.Refuses c := by
  intro watched
  have hrelease : (s.fresh.record .rejectedRange).release s.table.held =
      s.fresh.record .rejectedRange := Registry.release_of_settled hs.settled
  obtain ⟨hout, hafter⟩ := step_of_error watched h
  rw [hrelease] at hafter
  refine ⟨hout, ?_, hafter⟩
  rw [step_of_perform watched h]
  rfl

/-! ## Requests -/

/-- A step that is not refused succeeds, and the bags stay as they are. -/
theorem Sound.outcome_view (hs : s.Sound) (hname : s.table.find? name = some (.bag v))
    (hv : v.Intact s.fresh) (st : ViewStep α) (hst : st.refused v.order = false)
    (watched : List String) (new : String) :
    (s.step watched (.bind new (.view name st))).1.outcome = .ok .done ∧
      (s.step watched (.bind new (.view name st))).2.registry.contents = s.registry.contents := by
  obtain ⟨w, reg, hrun, -, hcontents⟩ :=
    ViewStep.run_gives hs.fresh (hs.live_fresh.find? hname) hv hst
  have hmake : ((Making.view name st).run s.table).perform s.fresh =
      (.ok (.bag (reg.enroll w).1), (reg.enroll w).2) :=
    (perform_bind_ok (Table.perform_bag hname s.fresh)).trans (perform_bind_ok hrun)
  obtain ⟨hout, hafter⟩ := step_of_ok watched (c := .bind new (.view name st))
    (perform_bind_ok hmake)
  refine ⟨hout, ?_⟩
  rw [hafter, Registry.contents_release, Registry.contents_enroll, hcontents]
  rfl

/-- The order of a bag decides which of its ranges are refused. -/
theorem Reachable.refusesWhen (hs : s.Reachable) (hname : s.table.find? name = some (.bag v))
    (hreach : s.registry.canReach v = true) (hatt : v.root.access ≠ .detached)
    (lo hi : Endpoint α) :
    s.RefusesWhen (.view name (.sub lo hi)) (v.order.compare lo.element hi.element = .gt) := by
  have hv := hs.sound.intact hname hreach hatt
  refine fun new => ⟨fun hcrossed => hs.refuses ?_, fun hnot watched => ?_⟩
  · have hmake : ((Making.view name (.sub lo hi)).run s.table).perform s.fresh =
        (.error .invalidRange, s.fresh.record .rejectedRange) :=
      (perform_bind_ok (Table.perform_bag hname s.fresh)).trans
        (perform_bind_error (View.sub_refused hv.reach hcrossed))
    exact perform_bind_error hmake
  · have hst := ViewStep.refused_sub hnot
    exact (hs.sound.outcome_view hname hv _ hst watched new).1

/-- The order of a set decides which of its ranges are refused. -/
theorem Offers.refusesWhen {set : String} {u : ElementSet α} (h : s.Offers set u)
    (hs : s.Reachable) (lo hi : Endpoint α) :
    s.RefusesWhen (.elements set (.sub lo hi))
      (u.view.order.compare lo.element hi.element = .gt) := by
  have hu := h.intact hs.sound
  refine fun new => ⟨fun hcrossed => hs.refuses ?_, fun hnot watched => ?_⟩
  · have hmake : ((Making.elements set (.sub lo hi)).run s.table).perform s.fresh =
        (.error .invalidRange, s.fresh.record .rejectedRange) :=
      (perform_bind_ok (Table.perform_elements h.named s.fresh)).trans
        (perform_bind_error (ElementSet.sub_refused hu.follow hu.view.reach hcrossed))
    exact perform_bind_error hmake
  · have hst := ViewStep.refused_sub hnot
    exact (h.outcome_derived hs.sound (.sub lo hi) hst watched new).1

/-- A range that is not refused shows those entries of the bag that lie in its interval. -/
theorem Reachable.reads_range (hs : s.Reachable) (hname : s.table.find? name = some (.bag v))
    (hreach : s.registry.canReach v = true) (hatt : v.root.access ≠ .detached)
    {lo hi : Endpoint α} (hnot : v.order.compare lo.element hi.element ≠ .gt)
    (watched : List String) (new : String) :
    (s.step watched (.bind new (.view name (.sub lo hi)))).2.Reads
        (.askBag new (.entries .ascending))
        (.entries ((v.listing s.registry.contents).filter fun e =>
          (⟨some lo, some hi⟩ : Interval α).contains v.order e.element)) ∧
      (s.step watched (.bind new (.view name (.sub lo hi)))).2.Reads (.askBag new .isEmpty)
        (.flag ((v.listing s.registry.contents).filter fun e =>
          (⟨some lo, some hi⟩ : Interval α).contains v.order e.element).isEmpty) := by
  have hst := ViewStep.refused_sub hnot
  obtain ⟨hdone, hcontents⟩ :=
    hs.sound.outcome_view hname (hs.sound.intact hname hreach hatt) _ hst watched new
  obtain ⟨w, reg, -, hsup, hmakes, -, htable⟩ := view_of_outcome hs.sound hname hdone
  obtain rfl : w = v.narrowed ⟨some lo, some hi⟩ := hmakes
  have hafter := hs.next (c := .bind new (.view name (.sub lo hi))) trivial watched
  generalize (s.step watched (.bind new (.view name (.sub lo hi)))).2 = t at *
  have hnew : t.table.find? new =
      some (.bag (reg.enroll (v.narrowed ⟨some lo, some hi⟩)).1) := by
    rw [htable]
    exact Table.find?_bind_self s.table new _
  have hreach' : t.registry.canReach (reg.enroll (v.narrowed ⟨some lo, some hi⟩)).1 = true :=
    (Registry.canReach_enroll hsup t.registry).trans (View.canReach_narrowed _ v _)
  have hlisting : (reg.enroll (v.narrowed ⟨some lo, some hi⟩)).1.listing t.registry.contents =
      (v.listing s.registry.contents).filter fun e =>
        (⟨some lo, some hi⟩ : Interval α).contains v.order e.element := by
    rw [Registry.listing_enroll, View.listing_narrowed, hcontents]
  -- a range looks at its entries to tell whether there are any
  have hrange : (reg.enroll (v.narrowed ⟨some lo, some hi⟩)).1.IsRange :=
    (View.isRange_enroll reg _).mpr (View.isRange_narrowed v _)
  have hvalid := (hafter.sound.registry.stocks_root (hafter.sound.live.find? hnew).1).2
  have hvacant := (View.vacant_eq_iff hvalid).mpr fun hm => hm.not_isRange hrange
  rw [← hlisting]
  refine ⟨hafter.sound.reads_bag hnew hreach' (.inl rfl) rfl rfl,
    hafter.sound.reads_bag hnew hreach' (.inl rfl) rfl ?_⟩
  rw [BagQuery.answer, hvacant]

/-- The element set of a bag is a set of the bag's own view. -/
theorem Sound.elementSet (hs : s.Sound) (hname : s.table.find? name = some (.bag v))
    (watched : List String) (new : String) :
    (s.step watched (.bind new (.elementSet name))).1.outcome = .ok .done ∧
      (s.step watched (.bind new (.elementSet name))).2.table =
        s.table.bind new (.elements ⟨.weak, v⟩) := by
  have hset := View.elementSet_gives (hs.live_fresh.find? hname).1
  have hmake : ((Making.elementSet name).run s.table).Gives s.fresh
      (.ok (.elements ⟨.weak, v⟩)) s.registry.contents :=
    .after (Table.perform_bag hname s.fresh) (hset.map Handle.elements)
  have hbind : ((Command.bind new (.elementSet name)).run s.table).Gives s.fresh
      (.ok (.done, s.table.bind new (.elements ⟨.weak, v⟩))) s.registry.contents :=
    hmake.map fun handle => (Answer.done, s.table.bind new handle)
  obtain ⟨hout, htable, -⟩ := step_of_gives watched hbind
  exact ⟨hout, htable⟩

/-- The descending view of a bag can be asked while the bag is held. -/
theorem Reachable.reversed (hs : s.Reachable) (hname : s.table.find? name = some (.bag v))
    (hreach : s.registry.canReach v = true) (hatt : v.root.access ≠ .detached) {d : String}
    (hd : s.table.find? d = none) (watched : List String) :
    ∃ w, v.Reverses w ∧ (s.step watched (.bind d (.view name .reversed))).1.outcome = .ok .done ∧
      (s.step watched (.bind d (.view name .reversed))).2.table.find? d = some (.bag w) ∧
      (s.step watched (.bind d (.view name .reversed))).2.registry.canReach w = true := by
  have hne : name ≠ d := by
    rintro rfl
    cases hd.symm.trans hname
  obtain ⟨hdone, -⟩ := hs.sound.outcome_view hname (hs.sound.intact hname hreach hatt)
    .reversed rfl watched d
  obtain ⟨w, hw, htable⟩ := reversed_of_outcome hs.sound hname hdone
  have hspares := hs.spares (c := .bind d (.view name .reversed)) trivial watched fun i hi => by
    rw [htable]
    exact Table.mem_held_bind hd _ hi
  have hafter := hs.next (c := .bind d (.view name .reversed)) trivial watched
  generalize (s.step watched (.bind d (.view name .reversed))).2 = t at *
  have hkept : t.table.find? name = some (.bag v) := by
    rw [htable, Table.find?_bind_of_ne _ hne, hname]
  refine ⟨w, hw, hdone, by rw [htable]; exact Table.find?_bind_self s.table d _, ?_⟩
  exact hw.canReach (hafter.sound.live.find? hkept) (Registry.canReach_of_spares hreach hspares)
    hatt

/-! ## Which ranges are refused -/

/-- A bag refuses a range exactly when its own order, as it hands it out, puts the lower endpoint
after the upper one; every other range succeeds and shows the listed entries between the endpoints.
That may be none: so it is for equal endpoints of which one is excluded, and for an interval in
which nothing lies that the bag lets through. The element set of the bag, and every other set of its
elements, refuses the same ranges, with and without flags, and so does its descending view, which is
asked for the endpoints the other way around. -/
theorem sub_refused_iff_crossed (hs : s.Reachable) (hname : s.table.find? name = some (.bag v))
    (hreach : s.registry.canReach v = true) (hatt : v.root.access ≠ .detached) :
    ∃ (c : Comparator α) (es : List (Entry α)),
      s.HandsOut (.comparatorOf name) c ∧
      s.Reads (.askBag name (.entries .ascending)) (.entries es) ∧
      (∀ lo hi : Endpoint α,
        s.RefusesWhen (.view name (.sub lo hi)) (c.compare lo.element hi.element = .gt)) ∧
      (∀ lo hi : Endpoint α, c.compare lo.element hi.element ≠ .gt → ∀ new watched,
        (s.step watched (.bind new (.view name (.sub lo hi)))).2.Reads
          (.askBag new (.entries .ascending))
          (.entries (es.filter fun e =>
            (⟨some lo, some hi⟩ : Interval α).contains c e.element)) ∧
        (c.compare lo.element hi.element = .eq ∧ (lo.edge = .exclusive ∨ hi.edge = .exclusive) ∨
            (∀ x, v.admits x = true →
              (⟨some lo, some hi⟩ : Interval α).contains c x = false) →
          (s.step watched (.bind new (.view name (.sub lo hi)))).2.Reads (.askBag new .isEmpty)
            (.flag true))) ∧
      (∀ new watched,
        (s.step watched (.bind new (.elementSet name))).1.outcome = .ok .done ∧
        (s.step watched (.bind new (.elementSet name))).2.table =
          s.table.bind new (.elements ⟨.weak, v⟩)) ∧
      (∀ set u, s.table.find? set = some (.elements u) → u.view = v →
        (∀ x y, s.RefusesWhen (.elements set (SetRequest.sub x y).step)
          (c.compare x y = .gt)) ∧
        (∀ x xIncluded y yIncluded,
          s.RefusesWhen (.elements set (SetRequest.subWith x xIncluded y yIncluded).step)
            (c.compare x y = .gt))) ∧
      ∀ d, s.table.find? d = none → ∀ watched,
        (s.step watched (.bind d (.view name .reversed))).1.outcome = .ok .done ∧
        ∀ lo hi : Endpoint α,
          (s.step watched (.bind d (.view name .reversed))).2.RefusesWhen (.view d (.sub hi lo))
            (c.compare lo.element hi.element = .gt) := by
  refine ⟨v.order, v.listing s.registry.contents, hs.sound.handsOut hname hreach,
    hs.sound.reads_bag hname hreach (.inl rfl) rfl rfl, hs.refusesWhen hname hreach hatt, ?_,
    fun new watched => hs.sound.elementSet hname watched new, ?_, ?_⟩
  · intro lo hi hnot new watched
    obtain ⟨hentries, hempty⟩ := hs.reads_range hname hreach hatt hnot watched new
    refine ⟨hentries, fun hnone => ?_⟩
    have hnil : ((v.listing s.registry.contents).filter fun e =>
        (⟨some lo, some hi⟩ : Interval α).contains v.order e.element) = [] := by
      refine View.filter_eq_nil_of_disjoint _ ?_
      rcases hnone with ⟨heq, hedge⟩ | hdisjoint
      · exact fun x _ => Interval.contains_eq_false_of_isEmpty (Interval.isEmpty_of_eq heq hedge) x
      · exact hdisjoint
    rw [hnil] at hempty
    exact hempty
  · rintro set u hset rfl
    have hoffers : s.Offers set u := ⟨hset, hreach, hatt⟩
    exact ⟨fun x y => hoffers.refusesWhen hs ⟨x, .inclusive⟩ ⟨y, .exclusive⟩,
      fun x xIncluded y yIncluded =>
        hoffers.refusesWhen hs ⟨x, .ofInclusive xIncluded⟩ ⟨y, .ofInclusive yIncluded⟩⟩
  · intro d hd watched
    obtain ⟨w, hw, hdone, hfind, hreachw⟩ := hs.reversed hname hreach hatt hd watched
    have hafter := hs.next (c := .bind d (.view name .reversed)) trivial watched
    refine ⟨hdone, fun lo hi => ?_⟩
    have hrefuses := hafter.refusesWhen hfind hreachw (hw.root ▸ hatt) hi lo
    rwa [hw.order, Comparator.reversed_compare] at hrefuses

/-- On the way down from five to one, four comes before two. -/
theorem sub_refused_iff_crossed_threeDescending :
    threeDescending.Refuses (.bind "w" (.view "d" (.sub ⟨2, .inclusive⟩ ⟨4, .inclusive⟩))) ∧
      (threeDescending.step []
        (.bind "w" (.view "d" (.sub ⟨4, .inclusive⟩ ⟨2, .inclusive⟩)))).2.Reads
          (.askBag "w" (.entries .ascending)) (.entries [⟨3, 1⟩]) ∧
      (threeDescending.step []
        (.bind "w" (.view "d" (.sub ⟨3, .inclusive⟩ ⟨3, .exclusive⟩)))).2.Reads
          (.askBag "w" .isEmpty) (.flag true) ∧
      threeDescending.Refuses (.bind "w" (.elements "e" (SetRequest.sub 2 4).step)) ∧
      (threeDescending.step [] (.bind "r" (.view "d" .reversed))).2.Refuses
        (.bind "w" (.view "r" (.sub ⟨4, .inclusive⟩ ⟨2, .inclusive⟩))) := by
  let b : Source Int := ⟨0, 0, ⟨0, .natural, false⟩, .indexed⟩
  let v : View Int := .descending (some 1) .weak (.source b)
  have hv : threeDescending.table.find? "d" = some (.bag v) := rfl
  obtain ⟨c, es, hcomp, hentries, hsub, hrange, -, hsets, hreversed⟩ :=
    sub_refused_iff_crossed threeDescending_reachable hv rfl (by decide)
  have hc : some (Handle.comparator ⟨0, .natural, true⟩) = some (.comparator c) := (hcomp "c" []).2
  obtain rfl : ⟨0, .natural, true⟩ = c := Handle.comparator.inj (Option.some.inj hc)
  have hes : Except.ok (Answer.entries [⟨5, 1⟩, ⟨3, 1⟩, ⟨1, 1⟩]) = Except.ok (.entries es) :=
    (hentries []).1
  obtain rfl := Answer.entries.inj (Except.ok.inj hes)
  exact ⟨(hsub _ _ "w").1 rfl, (hrange ⟨4, .inclusive⟩ ⟨2, .inclusive⟩ (by decide) "w" []).1,
    (hrange ⟨3, .inclusive⟩ ⟨3, .exclusive⟩ (by decide) "w" []).2 (.inl ⟨rfl, .inr rfl⟩),
    ((hsets "e" ⟨.weak, v⟩ rfl rfl).1 2 4 "w").1 rfl, ((hreversed "r" rfl []).2 _ _ "w").1 rfl⟩

end Session

end OrderedBag
