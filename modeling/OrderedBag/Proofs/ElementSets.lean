import OrderedBag.Proofs.Navigation

/-!
# Element sets and the sets derived from them

The elements of a set are those of the entries that its bag lists, and every question to the set
agrees with that list. A chain of ranges and reversals, each asked of the set that the one before
has made, leads to a set that lists what of the first one lies within all bounds, forwards or
backwards. It does so from then on, whatever becomes of the bag.

* `SetRequest.satisfies` — the bounds of a chain, each read in the order of the set that was asked
* `Session.Presents` — everything that a set tells agrees with an order and a list of elements
* `Session.Derives` — the sets that chains of requests lead to, with anything happening in between
* `Session.derived_sets_present` — what the set of a bag lists, and every set derived from it
-/

namespace OrderedBag

variable {α : Type}

/-! ## Chains of requests -/

/-- Whether `a` stands before `b`, or, if that counts, compares equal to it. -/
def Comparator.leads (c : Comparator α) (included : Bool) (a b : α) : Bool :=
  if included then (c.compare a b).isLE else (c.compare a b).isLT

namespace SetRequest

/-- Whether an element lies within the bounds of a request, in the order of the set that is asked.
Where there are no flags, the lower end is included and the upper end is excluded. -/
def admits (c : Comparator α) : SetRequest α → α → Bool
  | sub lo hi, x => c.leads true lo x && c.leads false x hi
  | head hi, x => c.leads false x hi
  | tail lo, x => c.leads true lo x
  | subWith lo loIncluded hi hiIncluded, x => c.leads loIncluded lo x && c.leads hiIncluded x hi
  | headWith hi included, x => c.leads included x hi
  | tailWith lo included, x => c.leads included lo x
  | descending, _ => true

/-- Whether a request is for the elements backwards. -/
def turns : SetRequest α → Bool
  | descending => true
  | _ => false

/-- Whether an element lies within all bounds of a chain. After every reversal the order is turned
around. -/
def satisfies : Comparator α → List (SetRequest α) → α → Bool
  | _, [], _ => true
  | c, r :: path, x => r.admits c x && satisfies (if r.turns then c.reversed else c) path x

/-- Forwards after an even number of reversals, backwards after an odd one. -/
def heading (path : List (SetRequest α)) : Direction :=
  .ofParity (path.countP turns)

/-- Whether the lower end of a request is ordered after its upper end. -/
def Crossed (c : Comparator α) : SetRequest α → Prop
  | sub lo hi | subWith lo _ hi _ => c.compare lo hi = .gt
  | head _ | tail _ | headWith _ _ | tailWith _ _ | descending => False

/-! ### The steps behind the requests -/

/-- What a request asks of the view behind a set. -/
def viewStep (r : SetRequest α) : ViewStep α :=
  r.step.onView

theorem turns_viewStep (r : SetRequest α) : r.viewStep.turns = r.turns := by
  cases r <;> rfl

theorem contains_upTo_flagged (c : Comparator α) (hi x : α) (included : Bool) :
    (Interval.upTo ⟨hi, .ofInclusive included⟩).contains c x = c.leads included x hi := by
  rw [Interval.contains_upTo]
  cases included <;> rfl

theorem contains_downTo_flagged (c : Comparator α) (lo x : α) (included : Bool) :
    (Interval.downTo ⟨lo, .ofInclusive included⟩).contains c x = c.leads included lo x := by
  rw [Interval.contains_downTo, Comparator.leads, ← c.compare_swap lo x]
  cases included <;> cases c.compare x lo <;> rfl

/-- The interval of a step holds what lies within the bounds of the request. -/
theorem contains_viewStep (r : SetRequest α) (c : Comparator α) (x : α) :
    r.viewStep.interval.contains c x = r.admits c x := by
  cases r with
  | sub lo hi =>
    refine (Interval.contains_both c _ _ x).trans ?_
    exact congrArg₂ (· && ·) (contains_downTo_flagged c lo x true)
      (contains_upTo_flagged c hi x false)
  | head hi => exact contains_upTo_flagged c hi x false
  | tail lo => exact contains_downTo_flagged c lo x true
  | subWith lo loIncluded hi hiIncluded =>
    refine (Interval.contains_both c _ _ x).trans ?_
    exact congrArg₂ (· && ·) (contains_downTo_flagged c lo x loIncluded)
      (contains_upTo_flagged c hi x hiIncluded)
  | headWith hi included => exact contains_upTo_flagged c hi x included
  | tailWith lo included => exact contains_downTo_flagged c lo x included
  | descending => rfl

theorem satisfies_viewStep (c : Comparator α) (path : List (SetRequest α)) (x : α) :
    ViewStep.satisfies c (path.map viewStep) x = satisfies c path x := by
  induction path generalizing c with
  | nil => rfl
  | cons r path ih =>
    rw [List.map_cons, ViewStep.satisfies, satisfies, contains_viewStep, ih, ViewStep.turn,
      turns_viewStep]

theorem heading_viewStep (path : List (SetRequest α)) :
    ViewStep.heading (path.map viewStep) = heading path := by
  unfold ViewStep.heading heading
  rw [List.countP_map]
  congr 2
  funext r
  exact r.turns_viewStep

theorem refused_viewStep {c : Comparator α} {r : SetRequest α} (h : ¬ r.Crossed c) :
    r.viewStep.refused c = false := by
  cases r with
  | sub lo hi => exact ViewStep.refused_sub h
  | subWith lo loIncluded hi hiIncluded => exact ViewStep.refused_sub h
  | head hi => rfl
  | tail lo => rfl
  | headWith hi included => rfl
  | tailWith lo included => rfl
  | descending => rfl

end SetRequest

namespace Session

variable [Ord α] [Std.TransOrd α] [Shown α] {s t : Session α} {set : String} {u w : ElementSet α}

/-! ## What a set tells -/

/-- The set has this order and these elements, and all that it is asked agrees with them, but for
the question whether it is empty where that is misled. There is a first and a last element unless
the set is empty. -/
structure Presents (s : Session α) (set : String) (c : Comparator α) (l : List α) : Prop where
  order : s.HandsOut (.comparatorOfElements set) c
  ascending : s.Reads (.askElements set (.elements .ascending)) (.elements l)
  descending : s.Reads (.askElements set (.elements .descending)) (.elements l.reverse)
  contains : ∀ x, s.Reads (.askElements set (.contains x))
    (.flag (l.any fun y => (c.compare y x).isEq))
  size : s.Reads (.askElements set .size) (.number l.length)
  isEmpty : ¬ s.Misled (.askElements set .isEmpty) →
    s.Reads (.askElements set .isEmpty) (.flag l.isEmpty)
  misled : s.Misled (.askElements set .isEmpty) →
    l ≠ [] ∧ s.Reads (.askElements set .isEmpty) (.flag true)
  first : ∀ x, l.head? = some x → s.Reads (.askElements set (.extreme .ascending)) (.element x)
  last : ∀ x, l.getLast? = some x → s.Reads (.askElements set (.extreme .descending)) (.element x)
  empty : l = [] → ∀ d, s.Declines (.askElements set (.extreme d)) .noSuchElement

/-- A set that can be asked presents the elements of the entries that its view shows. -/
theorem Offers.presents (h : s.Offers set u) (hs : s.Sound) :
    s.Presents set u.view.order (u.members s.registry.contents) where
  order := h.handsOut hs
  ascending := h.reads_elements hs .ascending
  descending := h.reads_elements hs .descending
  contains x := by
    have hread : s.Reads (.askElements set (.contains x)) _ := h.reads hs rfl rfl
    rw [ElementSet.members, List.any_map]
    rwa [Comparator.find?, List.isSome_find?] at hread
  size := h.reads_size hs
  isEmpty := h.reads_isEmpty hs
  misled := h.misread_isEmpty hs
  first _ hx := h.reads_extreme hs hx
  last _ hx := h.reads_extreme hs hx
  empty hnil d := h.declines_extreme hs d hnil

/-! ## Derived sets -/

/-- From the set `u` of the first session, a chain of requests has led to the set `w` of a later
one. Between the requests, and after them, any command may have been carried out. -/
inductive Derives (s : Session α) (u : ElementSet α) :
    Session α → ElementSet α → List (SetRequest α) → Prop
  | start : Derives s u s u []
  | wait {t : Session α} {w : ElementSet α} {path : List (SetRequest α)}
      (h : Derives s u t w path) {c : Command α} (hc : c.Valid) (watched : List String) :
      Derives s u (t.step watched c).2 w path
  | request {t : Session α} {w : ElementSet α} {path : List (SetRequest α)}
      (h : Derives s u t w path) (name : String) (r : SetRequest α) (new : String)
      (w' : ElementSet α) (watched : List String)
      (hname : t.table.find? name = some (.elements w))
      (hdone : (t.step watched (.bind new (.elements name r.step))).1.outcome = .ok .done)
      (hnew : (t.step watched (.bind new (.elements name r.step))).2.table.find? new =
        some (.elements w')) :
      Derives s u (t.step watched (.bind new (.elements name r.step))).2 w' (path ++ [r])

variable {path : List (SetRequest α)}

/-- The view of a derived set is what the steps behind the requests leave. -/
theorem Derives.spec (h : s.Derives u t w path) (hs : s.Reachable) :
    t.Reachable ∧ u.view.Leaves (path.map SetRequest.viewStep) w.view := by
  induction h with
  | start => exact ⟨hs, .refl u.view⟩
  | wait _ hc watched ih => exact ⟨ih.1.next hc watched, ih.2⟩
  | request h name r new w' watched hname hdone hnew ih =>
    obtain ⟨made, htable, hleaves, -⟩ := ih.1.sound.derived hname hdone
    rw [htable, Table.find?_bind_self] at hnew
    obtain rfl : made = w' := Handle.elements.inj (Option.some.inj hnew)
    refine ⟨ih.1.next (c := .bind new (.elements name r.step)) trivial watched, ?_⟩
    rw [List.map_append]
    exact ih.2.trans hleaves

/-- A derived set presents what of the first set lies within all bounds. -/
theorem Derives.presents (h : s.Derives u t w path) (hs : s.Reachable) {name : String}
    (hw : t.Offers name w) :
    t.Presents name (u.view.order.towards (SetRequest.heading path))
      ((SetRequest.heading path).orient
        ((u.members t.registry.contents).filter (SetRequest.satisfies u.view.order path))) := by
  obtain ⟨ht, hleaves⟩ := h.spec hs
  have horder := hleaves.order
  have hmembers := hleaves.members t.registry.contents
  have hsatisfies : ViewStep.satisfies u.view.order (path.map SetRequest.viewStep) =
      SetRequest.satisfies u.view.order path := funext (SetRequest.satisfies_viewStep _ path)
  rw [SetRequest.heading_viewStep] at horder hmembers
  rw [hsatisfies] at hmembers
  rw [← horder, ← hmembers]
  exact hw.presents ht.sound

/-- A request whose ends are not crossed makes the chain longer. -/
theorem Derives.extend (h : s.Derives u t w path) (hs : s.Reachable) {name : String}
    (hw : t.Offers name w) {r : SetRequest α} (hr : ¬ r.Crossed w.view.order) (new : String)
    (watched : List String) :
    (t.step watched (.bind new (.elements name r.step))).1.outcome = .ok .done ∧
      ∃ w', (t.step watched (.bind new (.elements name r.step))).2.table.find? new =
          some (.elements w') ∧
        s.Derives u (t.step watched (.bind new (.elements name r.step))).2 w' (path ++ [r]) := by
  have ht := (h.spec hs).1.sound
  have hdone := (hw.outcome_derived ht _ (SetRequest.refused_viewStep hr) watched new).1
  obtain ⟨w', htable, -⟩ := ht.derived hw.named hdone
  have hnew : (t.step watched (.bind new (.elements name r.step))).2.table.find? new =
      some (.elements w') := by
    rw [htable]
    exact Table.find?_bind_self t.table new _
  exact ⟨hdone, w', hnew, h.request name r new w' watched hw.named hdone hnew⟩

/-- A set that can be asked presents the elements of the entries that the bag behind it lists. From
it, every chain of ranges and reversals leads on unless the ends of a range are crossed, and leads
to a set which, as long as it can be asked, presents those elements of the first set that lie within
all bounds, forwards after an even number of reversals and backwards after an odd one. So it is at
once and in every later session, for the elements that the first set has then. -/
theorem derived_sets_present (hs : s.Reachable) (hset : s.table.find? set = some (.elements u))
    (hreach : s.registry.canReach u.view = true) (hatt : u.view.root.access ≠ .detached) :
    ∃ (c : Comparator α) (es : List (Entry α)),
      (∀ new watched,
        (s.step watched (.bind new (.bagOfElements set))).1.outcome = .ok .done ∧
        (s.step watched (.bind new (.bagOfElements set))).2.table =
          s.table.bind new (.bag u.view)) ∧
      (∀ name, s.table.find? name = some (.bag u.view) →
        s.Reads (.askBag name (.entries .ascending)) (.entries es)) ∧
      s.Presents set c (es.map Entry.element) ∧
      ∀ t w path, s.Derives u t w path →
        (∀ name, t.table.find? name = some (.elements u) → t.registry.canReach u.view = true →
          t.Presents name c (u.members t.registry.contents)) ∧
        ∀ name, t.table.find? name = some (.elements w) → t.registry.canReach w.view = true →
          t.Presents name (c.towards (SetRequest.heading path))
            ((SetRequest.heading path).orient
              ((u.members t.registry.contents).filter (SetRequest.satisfies c path))) ∧
          ∀ r : SetRequest α, ¬ r.Crossed (c.towards (SetRequest.heading path)) →
            ∀ new watched,
              (t.step watched (.bind new (.elements name r.step))).1.outcome = .ok .done ∧
              ∃ w', (t.step watched (.bind new (.elements name r.step))).2.table.find? new =
                  some (.elements w') ∧
                s.Derives u (t.step watched (.bind new (.elements name r.step))).2 w'
                  (path ++ [r]) := by
  have h : s.Offers set u := ⟨hset, hreach, hatt⟩
  refine ⟨u.view.order, u.view.listing s.registry.contents,
    fun new watched => h.bag_of_elements hs.sound watched new,
    fun name hname => hs.sound.reads_bag hname hreach (.inl rfl) rfl rfl, h.presents hs.sound,
    fun t w path hderives => ?_⟩
  obtain ⟨ht, hleaves⟩ := hderives.spec hs
  refine ⟨fun name hname hreach' => ?_, fun name hname hreach' => ?_⟩
  · have hu : t.Offers name u := ⟨hname, hreach', hatt⟩
    exact hu.presents ht.sound
  · have hw : t.Offers name w := ⟨hname, hreach', hleaves.root ▸ hatt⟩
    refine ⟨hderives.presents hs hw, fun r hr new watched => ?_⟩
    rw [← SetRequest.heading_viewStep, ← hleaves.order] at hr
    exact hderives.extend hs hw hr new watched

/-- Of the set of five, three and one, on the way down, the head before one is taken and turned
around. The number four is inserted afterwards. -/
theorem derived_sets_present_threeDescending :
    let t := (run [] threeDescending [.bind "h" (.elements "e" (SetRequest.head 1).step),
      .bind "x" (.elements "h" SetRequest.descending.step), .change "s" (.insert 4)]).2
    threeDescending.Presents "e" ⟨0, .natural, true⟩ [5, 3, 1] ∧
      t.Presents "h" ⟨0, .natural, true⟩ [5, 4, 3] ∧
      t.Presents "x" ⟨0, .natural, false⟩ [3, 4, 5] := by
  intro t
  let b : Source Int := ⟨0, 0, ⟨0, .natural, false⟩, .indexed⟩
  let v : View Int := .descending (some 1) .weak (.source b)
  let w : View Int := .descending (some 4) .strong (.range (some 3) b (.downTo ⟨1, .exclusive⟩))
  have hu : threeDescending.table.find? "e" = some (.elements ⟨.weak, v⟩) := rfl
  obtain ⟨c, es, -, hbag, hset, hderived⟩ :=
    derived_sets_present threeDescending_reachable hu rfl (by decide)
  have hc : some (Handle.comparator ⟨0, .natural, true⟩) = some (.comparator c) :=
    (hset.order "c" []).2
  obtain rfl : ⟨0, .natural, true⟩ = c := Handle.comparator.inj (Option.some.inj hc)
  have hes : Except.ok (Answer.entries [⟨5, 1⟩, ⟨3, 1⟩, ⟨1, 1⟩]) = Except.ok (.entries es) :=
    (hbag "d" rfl []).1
  obtain rfl := Answer.entries.inj (Except.ok.inj hes)
  -- the head, the reversal of the head, and the insertion
  have hstart : threeDescending.Derives ⟨.weak, v⟩ threeDescending ⟨.weak, v⟩ [] := .start
  have hhead := hstart.request "e" (.head 1) "h" ⟨.strong, w⟩ [] hu rfl rfl
  have hturned := hhead.request "h" .descending "x" ⟨.strong, .descending (some 5) .strong w⟩ []
    rfl rfl rfl
  have hlater := hturned.wait (c := .change "s" (.insert 4)) trivial []
  have hkept := (hhead.wait (c := .bind "x" (.elements "h" SetRequest.descending.step)) trivial
    []).wait (c := .change "s" (.insert 4)) trivial []
  exact ⟨hset, ((hderived _ _ _ hkept).2 "h" rfl rfl).1, ((hderived _ _ _ hlater).2 "x" rfl rfl).1⟩

/-- The element set of a source that miscounts lists what is stored and has a first element, and
says that it is empty. -/
theorem not_derived_sets_present_overfull :
    let told (a : Arithmetic) := ((overfull a).run [] [.bind "e" (.elementSet "s"),
      .askElements "e" (.elements .ascending), .askElements "e" (.extreme .ascending),
      .askElements "e" .isEmpty]).1.map Report.outcome
    told .wrapping = [.ok .done, .ok (.elements [1, 2]), .ok (.element 1), .ok (.flag true)] ∧
      told .checked = [.ok .done, .ok (.elements [2]), .ok (.element 2), .ok (.flag true)] :=
  ⟨rfl, rfl⟩

end Session

end OrderedBag
