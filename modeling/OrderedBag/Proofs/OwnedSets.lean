import OrderedBag.Proofs.Answers
import OrderedBag.Proofs.NestedViews

/-!
# Sets of their own

An element set that is derived from another one keeps its view alive. That keeps the source alive
as well, unless a reference further down is weak: a set which a descending set was asked of may
belong to a descending view that refers weakly to the view behind it. Such a set fails once
everything else is dropped; any other one can always be used.

* `View.firstWeak?` — the view behind the first weak reference on the way down
* `Session.usable_after_drops_iff` — a set of its own survives all drops exactly if it has none
-/

namespace OrderedBag

open OrderedBag.Action

variable {α : Type}

/-! ## Weak references on the way down -/

namespace View

/-- The view behind the first weak reference on the way down. -/
def firstWeak? : View α → Option (View α)
  | source _ | range _ _ _ => none
  | descending _ .strong f => f.firstWeak?
  | descending _ .weak f => some f

theorem canReach_of_firstWeak? {v : View α} (h : v.firstWeak? = none) (reg : Registry α) :
    reg.canReach v = true := by
  induction v with
  | source s => rfl
  | range n s r => rfl
  | descending n link f ih =>
    cases link with
    | strong => exact ih h
    | weak => cases h

theorem firstWeak?_narrowed (v : View α) (q : Interval α) : (v.narrowed q).firstWeak? = none := by
  induction v generalizing q with
  | source s => rfl
  | range n s r => rfl
  | descending n link f ih => exact ih q.reverse

theorem firstWeak?_enroll {reg : Registry α} {v : View α} (h : reg.Supports v) :
    (reg.enroll v).1.firstWeak? = v.firstWeak? := by
  induction v with
  | source s => rfl
  | range n s r => cases n <;> rfl
  | descending n link f ih =>
    cases n with
    | some i => rfl
    | none =>
      cases link with
      | strong => exact ih h
      | weak => exact h.elim

variable {reg : Registry α} {v f : View α}

/-- The first weak reference is that of a descending view with a node. -/
theorem houses_firstWeak? (hw : reg.WellFormed) (hv : reg.Houses v) (h : v.firstWeak? = some f) :
    ∃ n, reg.Houses (descending n .weak f) := by
  induction v with
  | source s => cases h
  | range n s r => cases h
  | descending n link g ih =>
    cases link with
    | strong => exact ih (hv.base hw rfl) h
    | weak =>
      obtain rfl : g = f := Option.some.inj h
      exact ⟨n, hv⟩

/-- A view whose first weak reference leads nowhere cannot be asked. -/
theorem isEmpty_of_firstWeak? (h : v.firstWeak? = some f) (hgone : reg.canUpgrade f = false) :
    v.isEmpty reg = .error .ownerDropped := by
  induction v with
  | source s => cases h
  | range n s r => cases h
  | descending n link g ih =>
    cases link with
    | strong => exact ih h
    | weak =>
      obtain rfl : g = f := Option.some.inj h
      rw [isEmpty, Registry.follow_weak, hgone]
      rfl

end View

namespace Registry

variable {reg : Registry α} {v f : View α} {i : NodeId}

/-- Whatever is kept alive by a view with a weak reference on its way down has the same one on its
own way down. -/
theorem Reaches.firstWeak? (hw : reg.WellFormed) (hv : reg.Houses v) (hi : v.node? = some i)
    (hweak : v.firstWeak? = some f) {j : NodeId} (h : reg.Reaches [i] j) :
    ∃ n, reg.nodes[j]? = some n ∧ n.view.firstWeak? = some f := by
  obtain ⟨r, hr, hpath⟩ := h
  obtain rfl : r = i := List.mem_singleton.mp hr
  -- only strong references are kept, so the first weak one stays the same along the path
  induction hpath with
  | refl =>
    obtain ⟨n, hn⟩ := hv
    exact ⟨n, hn.node_eq hi, by rw [hn.view, hweak]⟩
  | @tail k j _ hkeeps ih =>
    obtain ⟨n, hn, hn'⟩ := ih
    obtain ⟨m, hm, hj⟩ := hkeeps
    obtain rfl : n = m := Option.some.inj (hn.symm.trans hm)
    have hnode := hw k n hn
    cases hview : n.view with
    | source s => simp [hview, View.firstWeak?] at hn'
    | range l s r => simp [hview, View.firstWeak?] at hn'
    | descending l link g =>
      rw [hview] at hn'
      rcases List.mem_append.mp hj with hj | hj
      · rw [hview] at hj
        cases link with
        | weak => simp [View.keeps] at hj
        | strong =>
          obtain ⟨⟨n', hg⟩, -⟩ := hnode.base g (by rw [hview]; rfl)
          have hgj : g.node? = some j := by simpa [View.keeps] using hj
          exact ⟨n', hg.node_eq hgj, by rw [hg.view]; exact hn'⟩
      · -- a descending view has built no other one
        obtain ⟨d, hd, -⟩ := Option.bind_eq_some_iff.mp (Option.mem_toList.mp hj)
        obtain ⟨-, hup, -⟩ := hnode.reversal d hd
        simp [hview, View.isDescending] at hup

/-- If nothing but such a view keeps anything alive, its weak reference leads nowhere. -/
theorem canUpgrade_firstWeak? (hw : reg.WellFormed) (hv : reg.Houses v) (hi : v.node? = some i)
    (hweak : v.firstWeak? = some f) (halone : ∀ j, reg.isAlive j = true → reg.Reaches [i] j) :
    reg.canUpgrade f = false := by
  obtain ⟨m, hm⟩ := View.houses_firstWeak? hw hv hweak
  have hup := isDescending_of_weak hw hm
  obtain ⟨n, hn⟩ := hm.base hw rfl
  -- if it existed, it would have itself behind a weak reference, but it is not descending
  by_contra hne
  rw [Bool.not_eq_false, canUpgrade, Bool.and_eq_true] at hne
  obtain ⟨j, hj, halive⟩ := (Option.any_eq_true _ _).mp hne.1
  obtain ⟨n', hn', hsame⟩ := (halone j halive).firstWeak? hw hv hi hweak
  obtain rfl : n = n' := Option.some.inj ((hn.node_eq hj).symm.trans hn')
  rw [hn.view] at hsame
  cases f with
  | source s => cases hsame
  | range l s r => cases hsame
  | descending l link g => simp [View.isDescending] at hup

end Registry

/-! ## Asking a set of its own -/

/-- The action does not fail for a view that is gone. -/
def Action.Survives {β : Type} (a : Action α β) (reg : Registry α) : Prop :=
  (a.perform reg).1 ≠ .error .ownerDropped

namespace Action

variable {β γ : Type} {reg : Registry α} {a : Action α β} {f : β → Action α γ}

theorem Gives.survives {o : Except Failure β} {k : BagId → Histogram α} (ha : a.Gives reg o k)
    (ho : o ≠ .error .ownerDropped) : a.Survives reg := by
  obtain ⟨reg', hl, -⟩ := ha
  unfold Survives
  rwa [hl]

theorem Survives.bind (ha : a.Survives reg)
    (hf : ∀ b reg', a.perform reg = (.ok b, reg') → (f b).Survives reg') :
    (a >>= f).Survives reg := by
  unfold Survives at ha ⊢
  rw [perform_bind]
  cases hp : a.perform reg with
  | mk o reg' =>
    rw [hp] at ha
    cases o with
    | error e => exact fun h => ha (congrArg Except.error (Except.error.inj h))
    | ok b => exact hf b reg' hp

theorem Survives.answer (ha : a.Survives reg) (g : β → γ) :
    (a >>= fun b => pure (g b)).Survives reg :=
  ha.bind fun _ _ _ => by simp [Survives]

theorem survives_updating (g : Registry α → β × Registry α) (reg : Registry α) :
    (updating g).Survives reg := by
  simp [Survives]

theorem Survives.after {b : β} (ha : a.perform reg = (.ok b, reg)) (hf : (f b).Survives reg) :
    (a >>= f).Survives reg := by
  unfold Survives at hf ⊢
  rwa [perform_bind_ok ha]

end Action

theorem ElementQuery.answer_ne_ownerDropped [Shown α] (c : Comparator α) (es : List (Entry α))
    (vacant : Bool) (q : ElementQuery α) : q.answer c es vacant ≠ .error .ownerDropped := by
  cases q with
  | extreme d =>
    cases he : d.extreme? es <;> simp [answer, he]
  | _ => simp [answer]

theorem ElementStep.run_survives {reg : Registry α} {s : ElementSet α} (hs : reg.Sound)
    (h : s.Intact reg) (st : ElementStep α) : (st.run s).Survives reg := by
  cases hst : st.onView.refused s.view.order with
  | true => exact (run_refused h hst).gives.survives (by simp)
  | false =>
    obtain ⟨t, ht⟩ := run_answers (h.view.usable hs) h hst
    exact ht.gives.survives (by simp)

/-- A command asks the set of a name, or makes something from it. -/
def Command.Uses (name : String) : Command α → Prop
  | askElements set _ => set = name
  | bind _ (.elements set _) => set = name
  | bind _ (.walkElements set _) => set = name
  | bind _ (.bagOfElements set) => set = name
  | bind _ (.comparatorOfElements set) => set = name
  | _ => False

/-- Nothing that uses an intact set fails for a view that is gone. -/
theorem Command.Uses.survives [Ord α] [Std.TransOrd α] [Shown α] {reg : Registry α} {t : Table α}
    {name : String} {u : ElementSet α} {c : Command α} (hc : c.Uses name)
    (hs : reg.Sound) (hfind : t.find? name = some (.elements u)) (h : u.Intact reg) :
    (c.run t).Survives reg := by
  have hu := h.view.usable hs
  have hset := Table.perform_elements hfind reg
  cases c with
  | askElements set q =>
    obtain rfl : set = name := hc
    have hask : (q.run u).Survives reg :=
      (q.run_gives hs h).survives (q.answer_ne_ownerDropped _ _ _)
    exact .after hset (hask.answer fun a => (a, t))
  | bind new m =>
    have hbind (hm : (m.run t).Survives reg) : ((Command.bind new m).run t).Survives reg :=
      hm.answer fun handle => (Answer.done, t.bind new handle)
    refine hbind ?_
    cases m with
    | elements set st =>
      obtain rfl : set = name := hc
      exact .after hset ((st.run_survives hs h).bind fun w reg' _ =>
        (survives_updating _ _).answer fun v => Handle.elements { w with view := v })
    | walkElements set d =>
      obtain rfl : set = name := hc
      obtain ⟨w, hscan, -⟩ := u.scanTowards_answers hu h.follow d
      exact .after hset ((hscan.gives.survives (by simp)).answer fun w =>
        Handle.walk (.elements w))
    | bagOfElements set =>
      obtain rfl : set = name := hc
      exact .after hset (.after (ElementSet.perform_bag h.follow)
        ((survives_updating _ _).answer Handle.bag))
    | comparatorOfElements set =>
      obtain rfl : set = name := hc
      have hcomp := View.comparator_gives hs h.view.houses h.view.reach
      have hask : u.comparator.Survives reg :=
        .after (ElementSet.perform_bag h.follow) (hcomp.survives (by simp))
      exact .after hset (hask.answer Handle.comparator)
    | _ => exact hc.elim
  | _ => exact hc.elim

theorem Command.valid_drops (names : List String) :
    ∀ c ∈ names.map (Command.drop (α := α)), c.Valid := by
  intro c hc
  obtain ⟨_, -, rfl⟩ := List.mem_map.mp hc
  trivial

namespace Session

variable [Ord α] [Std.TransOrd α] [Shown α] {s : Session α} {watched : List String}

/-! ## Dropping handles -/

theorem Reachable.drops (hs : s.Reachable) (watched names : List String) :
    (Session.run watched s (names.map .drop)).2.Reachable :=
  hs.run (Command.valid_drops names) watched

theorem table_drop (s : Session α) (name : String) :
    (s.step watched (.drop name)).2.table = s.table.erase name := by
  have hrun : ((Command.drop name).run s.table).perform s.fresh =
      (.ok (.done, s.table.erase name), s.fresh) := rfl
  exact congrArg table (step_of_ok watched hrun).2

/-- Dropping handles changes no bag. -/
theorem contents_drops (s : Session α) (watched names : List String) :
    (run watched s (names.map .drop)).2.registry.contents = s.registry.contents := by
  induction names generalizing s with
  | nil => rfl
  | cons name names ih =>
    have hrun : ((Command.drop name).run s.table).perform s.fresh =
        (.ok (.done, s.table.erase name), s.fresh) := rfl
    refine (ih (s.step watched (.drop name)).2).trans ?_
    rw [(step_of_ok watched hrun).2, Registry.contents_release]
    rfl

theorem mem_table_drops {names : List String} {entry : String × Handle α}
    (h : entry ∈ (run watched s (names.map .drop)).2.table) :
    entry ∈ s.table ∧ entry.1 ∉ names := by
  induction names generalizing s with
  | nil => exact ⟨h, List.not_mem_nil⟩
  | cons name names ih =>
    obtain ⟨hmem, hnames⟩ := ih (s := (s.step watched (.drop name)).2) h
    rw [table_drop] at hmem
    obtain ⟨hmem, hne⟩ := List.mem_filter.mp hmem
    refine ⟨hmem, ?_⟩
    rw [List.mem_cons, not_or]
    exact ⟨by simpa using hne, hnames⟩

theorem find?_drops {names : List String} {name : String} (h : name ∉ names) :
    (run watched s (names.map .drop)).2.table.find? name = s.table.find? name := by
  induction names generalizing s with
  | nil => rfl
  | cons other names ih =>
    obtain ⟨hne, hnames⟩ := not_or.mp (fun hor => h (List.mem_cons.mpr hor))
    refine (ih (s := (s.step watched (.drop other)).2) hnames).trans ?_
    rw [table_drop, Table.find?_erase_of_ne _ hne]

/-- A name that is dropped stands for nothing. -/
theorem find?_drops_of_mem {names : List String} {name : String} (h : name ∈ names) :
    (run watched s (names.map .drop)).2.table.find? name = none := by
  cases hfind : (run watched s (names.map .drop)).2.table.find? name with
  | none => rfl
  | some handle => exact absurd h (mem_table_drops (Table.mem_of_find? hfind)).2

/-- If a set alone is held, whatever exists is kept alive by the view of that set. -/
theorem Reachable.reaches_alone (hs : s.Reachable) {name : String} {u : ElementSet α}
    (hname : s.table.find? name = some (.elements u)) (hall : ∀ entry ∈ s.table, entry.1 = name)
    {i j : NodeId} (hi : u.view.node? = some i) (hj : s.registry.isAlive j = true) :
    s.registry.Reaches [i] j := by
  obtain ⟨k, hk, hpath⟩ := hs.reaches hj
  obtain ⟨entry, he, hheld⟩ := List.mem_filterMap.mp hk
  have hhandle : entry.2 = .elements u :=
    hs.sound.distinct.eq_of_mem (hall entry he ▸ he) (Table.mem_of_find? hname)
  rw [hhandle] at hheld
  exact ⟨k, List.mem_singleton.mpr (Option.some.inj (hheld.symm.trans hi)), hpath⟩

/-- A set with a weak reference on its way down cannot be asked once it alone is held. -/
theorem Reachable.outcome_alone (hs : s.Reachable) {name : String} {u : ElementSet α} {f : View α}
    (hname : s.table.find? name = some (.elements u)) (hall : ∀ entry ∈ s.table, entry.1 = name)
    (hown : u.link = .strong) (hweak : u.view.firstWeak? = some f) :
    (s.step watched (.askElements name .isEmpty)).1.outcome = .error .ownerDropped := by
  have hlive := hs.sound.live_fresh.find? hname
  obtain ⟨i, hi, -⟩ := Registry.Live.index hlive
  have hgone := Registry.canUpgrade_firstWeak? hs.sound.fresh.wellFormed hlive.1 hi hweak
    fun j hj => hs.reaches_alone hname hall hi hj
  have hread := perform_reading u.view.isEmpty s.fresh
  rw [View.isEmpty_of_firstWeak? hweak hgone] at hread
  have hask : u.isEmpty.perform s.fresh = (.error .ownerDropped, s.fresh) :=
    (perform_bind_ok (ElementSet.perform_bag (by rw [hown]; rfl))).trans hread
  have hrun : ((Command.askElements name .isEmpty).run s.table).perform s.fresh =
      (.error .ownerDropped, s.fresh) :=
    (perform_bind_ok (Table.perform_elements hname _)).trans
      (perform_bind_error (perform_bind_error hask))
  exact (step_of_error _ hrun).1

/-- A set without a weak reference on its way down can always be used. -/
theorem Sound.outcome_ne_ownerDropped (hs : s.Sound) {name : String} {u : ElementSet α}
    (hname : s.table.find? name = some (.elements u)) (hown : u.link = .strong)
    (hatt : u.view.root.access ≠ .detached) (hnone : u.view.firstWeak? = none) {c : Command α}
    (hc : c.Uses name) : (s.step watched c).1.outcome ≠ .error .ownerDropped := by
  have hset : u.Intact s.fresh :=
    ⟨⟨(hs.live_fresh.find? hname).1, View.canReach_of_firstWeak? hnone _, hatt⟩, by rw [hown]; rfl⟩
  have hsurvives := hc.survives hs.fresh hname hset
  rw [step_outcome]
  unfold Survives at hsurvives
  generalize (c.run _).perform _ = p at hsurvives
  obtain ⟨_ | ⟨answer, t⟩, reg⟩ := p
  · simpa [Except.map] using hsurvives
  · simp [Except.map]

/-- A set of its own can be used after every sequence of drops of other handles exactly if there is
no weak reference on the way down from its view. -/
theorem usable_after_drops_iff (hs : s.Reachable) {name : String} {u : ElementSet α}
    (hname : s.table.find? name = some (.elements u)) (hown : u.link = .strong)
    (hatt : u.view.root.access ≠ .detached) :
    (∀ names : List String, name ∉ names → ∀ c : Command α, c.Uses name →
      ((run watched s (names.map .drop)).2.step watched c).1.outcome ≠ .error .ownerDropped) ↔
      u.view.firstWeak? = none := by
  have hreach (names : List String) : (run watched s (names.map .drop)).2.Reachable := by
    refine hs.run (fun c hc => ?_) watched
    obtain ⟨_, -, rfl⟩ := List.mem_map.mp hc
    trivial
  constructor
  · intro husable
    by_contra hne
    obtain ⟨f, hweak⟩ := Option.ne_none_iff_exists'.mp hne
    -- once every other name is dropped, the set alone is held
    have hnot : name ∉ (s.table.map Prod.fst).filter (· != name) :=
      fun h => by simpa using (List.mem_filter.mp h).2
    refine husable _ hnot (.askElements name .isEmpty) rfl
      ((hreach _).outcome_alone ((find?_drops hnot).trans hname) ?_ hown hweak)
    intro entry he
    obtain ⟨hold, hother⟩ := mem_table_drops he
    by_contra hkey
    exact hother (List.mem_filter.mpr ⟨List.mem_map_of_mem hold, by simpa using hkey⟩)
  · intro hnone names hnot c hc
    exact (hreach names).sound.outcome_ne_ownerDropped ((find?_drops hnot).trans hname) hown hatt
      hnone hc

/-- The descending set of the set of three numbers, asked of their descending view. -/
def threeDescending : Session Int :=
  (run [] threeReversed [.bind "e" (.elementSet "d"), .bind "o" (.elements "e" .descending)]).2

/-- A head of that set beside it. -/
def threeDescendingHead : Session Int :=
  (threeDescending.step [] (.bind "h" (.elements "e" (.head ⟨3, .inclusive⟩)))).2

theorem threeDescending_reachable : threeDescending.Reachable := by
  refine threeReversed_reachable.run (fun c hc => ?_) []
  rcases hc with _ | ⟨_, _ | ⟨_, ⟨⟩⟩⟩ <;> trivial

theorem threeDescendingHead_reachable : threeDescendingHead.Reachable :=
  threeDescending_reachable.next (c := .bind "h" (.elements "e" (.head ⟨3, .inclusive⟩))) trivial []

theorem usable_after_drops_threeDescendingHead :
    ∃ u, threeDescendingHead.table.find? "h" = some (.elements u) ∧ u.link = .strong ∧
      ∀ names : List String, "h" ∉ names → ∀ c : Command Int, c.Uses "h" →
        ((run [] threeDescendingHead (names.map .drop)).2.step [] c).1.outcome ≠
          .error .ownerDropped :=
  ⟨_, rfl, rfl, (usable_after_drops_iff threeDescendingHead_reachable rfl rfl (by decide)).mpr rfl⟩

/-- The descending set is gone with the numbers, although it is still held. -/
theorem not_usable_after_drops_threeDescending :
    threeDescending.Reachable ∧
      (∃ u, threeDescending.table.find? "o" = some (.elements u) ∧ u.link = .strong) ∧
      (run [] threeDescending [.drop "s", .drop "d", .drop "e",
        .askElements "o" (.extreme .ascending)]).1.map Report.outcome =
          [.ok .done, .ok .done, .ok .done, .error .ownerDropped] :=
  ⟨threeDescending_reachable, ⟨_, rfl, rfl⟩, rfl⟩

end Session

end OrderedBag
