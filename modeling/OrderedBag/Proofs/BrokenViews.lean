import OrderedBag.Proofs.Memory

/-!
# Broken views

A view is broken when, on the way down from it, a descending view refers weakly to a view that is
gone. Whatever reads, removes or narrows through a broken view fails, always for the same reason and
without touching a bag. What is gone does not come back, so a broken view stays broken.

* `View.Broken` — a weak reference on the way down leads nowhere
* `View.canReach_eq_false_iff` — that is what it takes not to reach the source
* `Command.Consults` — the commands that read, remove or narrow through a view
* `Command.Consults.breaks` — these fail for a broken view, and leave all bags as they are
-/

namespace OrderedBag

open OrderedBag.Action

variable {α β γ : Type}

/-! ## Broken views -/

namespace Registry

variable {reg reg' : Registry α} {v : View α}

/-- The view existed, and does not exist any more. -/
def Gone (reg : Registry α) (v : View α) : Prop :=
  ∃ i, v.node? = some i ∧ reg.Freed i

theorem Gone.bury (h : reg.Gone v) (hb : reg.Buries reg') : reg'.Gone v := by
  obtain ⟨i, hi, hfreed⟩ := h
  exact ⟨i, hi, hb i hfreed⟩

theorem Gone.canUpgrade_eq_false (h : reg.Gone v) : reg.canUpgrade v = false := by
  obtain ⟨i, hi, hfreed⟩ := h
  rw [canUpgrade, hi, Option.any_some, hfreed.isAlive_eq_false, Bool.false_and]

/-- A weak reference leads nowhere exactly when the view is gone. -/
theorem canUpgrade_eq_false_iff (hv : reg.Houses v) (hatt : v.isDetached = false) :
    reg.canUpgrade v = false ↔ reg.Gone v := by
  refine ⟨fun h => ?_, fun h => h.canUpgrade_eq_false⟩
  obtain ⟨n, hn⟩ := hv
  obtain ⟨i, hi, hnode⟩ := hn.index
  rw [canUpgrade, hatt, hi, Option.any_some, isAlive_eq hnode] at h
  exact ⟨i, hi, n, hnode, by simpa using h⟩

/-- No source is one that its own views cannot reach. -/
def Attached (reg : Registry α) : Prop :=
  ∀ s, reg.Houses (.source s) → s.access ≠ .detached

theorem Attached.isDetached_eq_false (ha : reg.Attached) (hv : reg.Houses v) :
    v.isDetached = false := by
  cases v with
  | source s => simpa [View.isDetached] using ha s hv
  | range n s r => rfl
  | descending n link f => rfl

/-- A reference to a view that exists can be followed. -/
theorem Attached.follow_live (ha : reg.Attached) (hl : reg.Live v) (link : Link) :
    reg.follow link v = .ok () := by
  cases link with
  | strong => rfl
  | weak =>
    rw [follow_weak, canUpgrade, hl.2, ha.isDetached_eq_false hl.1]
    rfl

end Registry

namespace View

variable {reg reg' : Registry α} {v f : View α} {n : Option NodeId} {link : Link}

/-- On the way down from the view, a descending view refers weakly to a view that is gone. -/
def Broken (reg : Registry α) (v : View α) : Prop :=
  ∃ n f, descending n .weak f ∈ v.chain ∧ reg.Gone f

theorem not_broken_of_up (hup : v.isDescending = false) : ¬ v.Broken reg := by
  rintro ⟨n, f, hmem, -⟩
  simpa [isDescending] using isDescending_of_mem_chain hup hmem

theorem broken_descending :
    (descending n link f).Broken reg ↔ link = .weak ∧ reg.Gone f ∨ f.Broken reg := by
  constructor
  · rintro ⟨m, g, hmem, hgone⟩
    rcases List.mem_cons.mp hmem with heq | hmem
    · obtain ⟨rfl, rfl, rfl⟩ := View.descending.inj heq
      exact .inl ⟨rfl, hgone⟩
    · exact .inr ⟨m, g, hmem, hgone⟩
  · rintro (⟨rfl, hgone⟩ | ⟨m, g, hmem, hgone⟩)
    · exact ⟨n, f, List.mem_cons_self, hgone⟩
    · exact ⟨m, g, List.mem_cons_of_mem _ hmem, hgone⟩

theorem Broken.bury (h : v.Broken reg) (hb : reg.Buries reg') : v.Broken reg' := by
  obtain ⟨n, f, hmem, hgone⟩ := h
  exact ⟨n, f, hmem, hgone.bury hb⟩

theorem Broken.moves (h : v.Broken reg) (hm : reg.Moves reg') : v.Broken reg' :=
  h.bury (Registry.Moves.buries hm)

/-- From a broken view the source cannot be reached. -/
theorem Broken.canReach_eq_false (h : v.Broken reg) : reg.canReach v = false := by
  induction v with
  | source s => exact absurd h (not_broken_of_up rfl)
  | range n s r => exact absurd h (not_broken_of_up rfl)
  | descending n link f ih =>
    rcases broken_descending.mp h with ⟨rfl, hgone⟩ | hf
    · rw [Registry.canReach, hgone.canUpgrade_eq_false, Bool.false_and]
    · cases link with
      | strong => exact ih hf
      | weak => rw [Registry.canReach, ih hf, Bool.and_false]

/-- From any other view it can, unless the source cannot be reached at all. -/
theorem canReach_eq_false_iff (hw : reg.WellFormed) (hv : reg.Houses v)
    (ha : v.root.access ≠ .detached) : reg.canReach v = false ↔ v.Broken reg := by
  refine ⟨fun h => ?_, fun h => h.canReach_eq_false⟩
  induction v with
  | source s => cases h
  | range n s r => cases h
  | descending n link f ih =>
    have hf := hv.base hw rfl
    rw [broken_descending]
    cases link with
    | strong => exact .inr (ih hf ha h)
    | weak =>
      rcases Bool.and_eq_false_iff.mp h with hup | hdown
      · have hatt := isDetached_eq_false (v := f) ha
        exact .inl ⟨rfl, (Registry.canUpgrade_eq_false_iff hf hatt).mp hup⟩
      · exact .inr (ih hf ha hdown)

theorem intact_of_not_broken (hw : reg.WellFormed) (hv : reg.Houses v)
    (ha : v.root.access ≠ .detached) (h : ¬ v.Broken reg) : v.Intact reg where
  houses := hv
  reach := by rwa [← Bool.not_eq_false, canReach_eq_false_iff hw hv ha]
  attached := ha

end View

/-! ## What fails for a broken view -/

/-- The action fails for a view that is gone, and leaves the contents of all bags. -/
abbrev Action.Breaks (a : Action α β) (reg : Registry α) : Prop :=
  a.Gives reg (.error .ownerDropped) reg.contents

namespace Action

variable {reg : Registry α} {a : Action α β} {f : β → Action α γ}

theorem breaks_reading {g : Registry α → Except Failure β} (h : g reg = .error .ownerDropped) :
    (reading g).Breaks reg :=
  (reading_answers h).gives

theorem Breaks.bind (h : a.Breaks reg) : (a >>= f).Breaks reg :=
  Gives.bind_error h

theorem Breaks.after {b : β} (ha : a.perform reg = (.ok b, reg)) (hf : (f b).Breaks reg) :
    (a >>= f).Breaks reg :=
  Gives.after ha hf

end Action

namespace View

variable {reg : Registry α} {v : View α}

/-- A question that every descending view puts to the view behind it, turned around, fails unless
the source can be reached. -/
theorem error_of_canReach (h : reg.canReach v = false) (ask : View α → β → Except Failure γ)
    (turn : β → β)
    (hturn : ∀ n link f b, ask (descending n link f) b = do reg.follow link f; ask f (turn b))
    (b : β) : ask v b = .error .ownerDropped := by
  induction v generalizing b with
  | source s => cases h
  | range n s r => cases h
  | descending n link f ih =>
    rw [hturn]
    rcases reg.follow_cases n link f with ⟨-, hfollow, -⟩ | ⟨hfollow, hdown⟩
    · rw [hfollow]
      rfl
    · rw [hfollow]
      exact ih (hdown.symm.trans h) (turn b)

theorem breaks_of_canReach (h : reg.canReach v = false) (ask : View α → β → Action α γ)
    (turn : β → β)
    (hturn : ∀ n link f b, ask (descending n link f) b = do
      Action.follow link f
      ask f (turn b)) (b : β) : (ask v b).Breaks reg := by
  induction v generalizing b with
  | source s => cases h
  | range n s r => cases h
  | descending n link f ih =>
    rw [hturn]
    have hlink := perform_follow link f reg
    rcases reg.follow_cases n link f with ⟨-, hfollow, -⟩ | ⟨hfollow, hdown⟩
    · rw [hfollow] at hlink
      exact Breaks.bind ⟨reg, hlink, .refl, rfl⟩
    · rw [hfollow] at hlink
      exact .after hlink (ih (hdown.symm.trans h) (turn b))

theorem scan_of_canReach (h : reg.canReach v = false) (d : Direction) :
    v.scan reg d = .error .ownerDropped :=
  error_of_canReach h (fun v d => v.scan reg d) Direction.flip (fun _ _ _ _ => rfl) d

theorem take_of_canReach (h : reg.canReach v = false) (x : α) : (v.take x).Breaks reg :=
  breaks_of_canReach h View.take id (fun _ _ _ _ => rfl) x

theorem poll_of_canReach (h : reg.canReach v = false) (d : Direction) : (v.poll d).Breaks reg :=
  breaks_of_canReach h View.poll Direction.flip (fun _ _ _ _ => rfl) d

theorem Broken.scan (h : v.Broken reg) (d : Direction) :
    v.scan reg d = .error .ownerDropped :=
  scan_of_canReach h.canReach_eq_false d

theorem Broken.scanWithin (h : v.Broken reg) (d : Direction) (q : Interval α) :
    v.scanWithin reg d q = .error .ownerDropped :=
  error_of_canReach h.canReach_eq_false
    (fun v (p : Direction × Interval α) => v.scanWithin reg p.1 p.2)
    (fun p => (p.1.flip, p.2.reverse)) (fun _ _ _ _ => rfl) (d, q)

theorem Broken.extreme? (h : v.Broken reg) (d : Direction) :
    v.extreme? reg d = .error .ownerDropped :=
  error_of_canReach h.canReach_eq_false (fun v d => v.extreme? reg d) Direction.flip
    (fun _ _ _ _ => rfl) d

theorem Broken.size (h : v.Broken reg) : v.size reg = .error .ownerDropped :=
  error_of_canReach h.canReach_eq_false (fun v _ => v.size reg) id (fun _ _ _ _ => rfl) ()

theorem Broken.distinctSize (h : v.Broken reg) : v.distinctSize reg = .error .ownerDropped :=
  error_of_canReach h.canReach_eq_false (fun v _ => v.distinctSize reg) id (fun _ _ _ _ => rfl) ()

theorem Broken.isEmpty (h : v.Broken reg) : v.isEmpty reg = .error .ownerDropped :=
  error_of_canReach h.canReach_eq_false (fun v _ => v.isEmpty reg) id (fun _ _ _ _ => rfl) ()

theorem Broken.entries (h : v.Broken reg) : v.entries reg = .error .ownerDropped := by
  rw [View.entries, h.scan]
  rfl

theorem Broken.occurrences (h : v.Broken reg) : v.occurrences reg = .error .ownerDropped := by
  rw [View.occurrences, h.scan]
  rfl

theorem Broken.count (h : v.Broken reg) (x : α) : (v.count x).Breaks reg :=
  breaks_of_canReach h.canReach_eq_false View.count id (fun _ _ _ _ => rfl) x

theorem Broken.contains (h : v.Broken reg) (x : α) : (v.contains x).Breaks reg := by
  cases v with
  | source s => exact absurd h (not_broken_of_up rfl)
  | range n s r => exact absurd h (not_broken_of_up rfl)
  | descending n link f => exact (h.count x).bind

theorem Broken.take (h : v.Broken reg) (x : α) : (v.take x).Breaks reg :=
  take_of_canReach h.canReach_eq_false x

theorem Broken.poll (h : v.Broken reg) (d : Direction) : (v.poll d).Breaks reg :=
  poll_of_canReach h.canReach_eq_false d

theorem Broken.narrow (h : v.Broken reg) (q : Interval α) : (v.narrow q).Breaks reg := by
  have hanswers := narrow_answers v q reg
  rw [Registry.reach, h.canReach_eq_false] at hanswers
  exact hanswers.gives

theorem Broken.sub (h : v.Broken reg) (lo hi : Endpoint α) : (v.sub lo hi).Breaks reg := by
  have hanswers := sub_answers v lo hi reg
  rw [Registry.reach, h.canReach_eq_false] at hanswers
  exact hanswers.gives

theorem Broken.drain (h : v.Broken reg) (d : Direction) : (v.drain d).Breaks reg :=
  (breaks_reading (h.scan d)).bind

/-- Even if the order is remembered, the visit fails. -/
theorem Broken.scanExpr (hs : reg.Sound) (hv : reg.Houses v) (h : v.Broken reg) (d : Direction)
    {q : IntervalExpr α} (hq : q.eval v.order ≠ none) : (v.scanExpr d q).Breaks reg := by
  rcases comparator_spec hs hv with hcomp | ⟨-, hcomp⟩
  · obtain ⟨r, hr⟩ := Option.ne_none_iff_exists'.mp hq
    refine hcomp.bind_ok fun reg' hm hk => ?_
    have hrequire := require_answers v.order q reg'
    rw [hr] at hrequire
    rw [← hk]
    refine hrequire.gives.bind_ok fun reg'' hm' hk' => ?_
    rw [← hk']
    exact breaks_reading (((h.moves hm).moves hm').scanWithin d r)
  · exact hcomp.bind_error

end View

/-! ## Consulting a view -/

/-- The interval of a visit, if it has one, is not refused. -/
def Visit.Sensible (c : Comparator α) : Visit α → Prop
  | within _ q => q.eval c ≠ none
  | entries _ | occurrences => True

/-- The interval of a question, if it has one, is not refused. -/
def BagQuery.Sensible (c : Comparator α) : BagQuery α → Prop
  | within _ q => q.eval c ≠ none
  | _ => True

/-- The command reads or removes entries through the view, directly or through one of its sets, or
makes a narrower view of it. -/
def Command.Consults (t : Table α) (v : View α) : Command α → Prop
  | askBag name q => t.find? name = some (.bag v) ∧ q.Sensible v.order
  | bind _ (.view name st) => t.find? name = some (.bag v) ∧ st.Narrows
  | bind _ (.walk name visit) => t.find? name = some (.bag v) ∧ visit.Sensible v.order
  | bind _ (.copyEntries name) | bind _ (.copyElements name) => t.find? name = some (.bag v)
  | change target (.absorb name) =>
    t.find? name = some (.bag v) ∧ ∃ s, t.find? target = some (.bag (.source s))
  | askElements name _ | bind _ (.walkElements name _) =>
    ∃ u, t.find? name = some (.elements u) ∧ u.view = v
  | bind _ (.elements name st) =>
    ∃ u, t.find? name = some (.elements u) ∧ u.view = v ∧ st.onView.Narrows
  | askEntries name _ | bind _ (.walkEntries name) =>
    ∃ u, t.find? name = some (.entries u) ∧ u.view = v
  | _ => False

section

variable {reg : Registry α} {v : View α}

theorem Visit.run_breaks (hs : reg.Sound) (hv : reg.Houses v) (h : v.Broken reg)
    {visit : Visit α} (hvisit : visit.Sensible v.order) : (visit.run v).Breaks reg := by
  cases visit with
  | entries d => exact (breaks_reading (h.scan d)).bind
  | within d q => exact (h.scanExpr hs hv d hvisit).bind
  | occurrences => exact (breaks_reading h.occurrences).bind

theorem ViewStep.run_breaks (h : v.Broken reg) {st : ViewStep α} (hst : st.Narrows) :
    (st.run v).Breaks reg := by
  cases st with
  | head hi => exact h.narrow _
  | tail lo => exact h.narrow _
  | sub lo hi => exact h.sub lo hi
  | reversed => exact hst.elim
  | itself => exact hst.elim

/-- What is asked of the view of a set fails for a broken view. -/
theorem ElementSet.bag_breaks {s : ElementSet α} (hf : reg.follow s.link s.view = .ok ())
    {f : View α → Action α β} (h : (f s.view).Breaks reg) : (s.bag >>= f).Breaks reg :=
  .after (perform_bag hf) h

theorem EntrySet.bag_breaks {s : EntrySet α} (hf : reg.follow .weak s.view = .ok ())
    {f : View α → Action α β} (h : (f s.view).Breaks reg) : (s.bag >>= f).Breaks reg :=
  .after (perform_bag hf) h

theorem ElementSet.scanTowards_breaks {s : ElementSet α} (hf : reg.follow s.link s.view = .ok ())
    (h : s.view.Broken reg) (d : Direction) : (s.scanTowards d).Breaks reg := by
  cases d with
  | ascending => exact bag_breaks hf (breaks_reading (h.scan .ascending))
  | descending =>
    -- the descending set refers to the same view, which cannot be visited
    refine (descending_answers hf).gives.bind_ok fun reg' hm hk => ?_
    have hturned : (View.descending none .strong s.view).Broken reg' :=
      View.broken_descending.mpr (.inr (h.moves hm))
    rw [← hk]
    exact bag_breaks (s := ⟨.strong, .descending none .strong s.view⟩) rfl
      (breaks_reading (hturned.scan .ascending))

theorem ElementStep.run_breaks {s : ElementSet α} (hf : reg.follow s.link s.view = .ok ())
    (h : s.view.Broken reg) {st : ElementStep α} (hst : st.onView.Narrows) :
    (st.run s).Breaks reg := by
  cases st with
  | head hi => exact ElementSet.bag_breaks hf (h.narrow _).bind
  | tail lo => exact ElementSet.bag_breaks hf (h.narrow _).bind
  | sub lo hi => exact ElementSet.bag_breaks hf (h.sub lo hi).bind
  | descending => exact hst.elim

section

variable [Shown α]

theorem BagQuery.run_breaks (hs : reg.Sound) (hv : reg.Houses v) (h : v.Broken reg)
    {q : BagQuery α} (hq : q.Sensible v.order) : (q.run v).Breaks reg := by
  cases q with
  | entries d => exact (h.drain d).bind
  | within d q => exact (h.scanExpr hs hv d hq).bind
  | extreme d => exact (breaks_reading (h.extreme? d)).bind
  | poll d => exact (h.poll d).bind
  | take x => exact (h.take x).bind
  | count x => exact (h.count x).bind
  | contains x => exact (h.contains x).bind
  | size => exact (breaks_reading h.size).bind
  | distinctSize => exact (breaks_reading h.distinctSize).bind
  | isEmpty => exact (breaks_reading h.isEmpty).bind
  | occurrences limit => exact (breaks_reading h.occurrences).bind
  | debug => exact (h.drain .ascending).bind
  | pretty => exact (h.drain .ascending).bind

theorem ElementQuery.run_breaks {s : ElementSet α} (hf : reg.follow s.link s.view = .ok ())
    (h : s.view.Broken reg) (q : ElementQuery α) : (q.run s).Breaks reg := by
  have hscan : s.scan.Breaks reg :=
    ElementSet.bag_breaks hf (breaks_reading (h.scan .ascending))
  cases q with
  | extreme d =>
    have hextreme : (s.extreme? d).Breaks reg :=
      ElementSet.bag_breaks hf (breaks_reading (h.extreme? d))
    exact Breaks.bind (a := s.extreme d) hextreme.bind
  | lower x => exact Breaks.bind (a := s.lower x) (ElementSet.bag_breaks hf (h.narrow _).bind)
  | floor x => exact Breaks.bind (a := s.floor x) (ElementSet.bag_breaks hf (h.narrow _).bind)
  | ceiling x => exact Breaks.bind (a := s.ceiling x) (ElementSet.bag_breaks hf (h.narrow _).bind)
  | higher x => exact Breaks.bind (a := s.higher x) (ElementSet.bag_breaks hf (h.narrow _).bind)
  | poll d => exact Breaks.bind (a := s.poll d) (ElementSet.bag_breaks hf (h.poll d).bind)
  | contains x => exact Breaks.bind (a := s.contains x) (ElementSet.bag_breaks hf (h.contains x))
  | remove x => exact Breaks.bind (a := s.remove x) (ElementSet.bag_breaks hf (h.take x).bind)
  | isEmpty =>
    exact Breaks.bind (a := s.isEmpty) (ElementSet.bag_breaks hf (breaks_reading h.isEmpty))
  | size =>
    exact Breaks.bind (a := s.size) (ElementSet.bag_breaks hf (breaks_reading h.distinctSize))
  | elements d => exact (ElementSet.scanTowards_breaks hf h d).bind
  | debug => exact hscan.bind
  | pretty => exact hscan.bind

theorem EntryQuery.run_breaks {s : EntrySet α} (hf : reg.follow .weak s.view = .ok ())
    (h : s.view.Broken reg) (q : EntryQuery α) : (q.run s).Breaks reg := by
  have hscan : s.scan.Breaks reg :=
    EntrySet.bag_breaks hf (breaks_reading (h.scan .ascending))
  cases q with
  | entries => exact hscan.bind
  | size =>
    exact Breaks.bind (a := s.size) (EntrySet.bag_breaks hf (breaks_reading h.distinctSize))
  | isEmpty =>
    exact Breaks.bind (a := s.isEmpty) (EntrySet.bag_breaks hf (breaks_reading h.isEmpty))
  | contains e =>
    exact Breaks.bind (a := s.contains e) (EntrySet.bag_breaks hf (h.count e.element).bind)
  | display => exact hscan.bind
  | debug => exact hscan.bind
  | pretty => exact hscan.bind

end

end

namespace Command.Consults

variable [Ord α] [Std.TransOrd α] [Shown α] {reg : Registry α} {t : Table α} {v : View α}
  {c : Command α}

/-- A command that consults a broken view fails, and leaves the contents of all bags. -/
theorem breaks (hc : c.Consults t v) (hs : reg.Sound) (ha : reg.Attached) (ht : t.Live reg)
    (h : v.Broken reg) : (c.run t).Breaks reg := by
  cases c with
  | askBag name q =>
    obtain ⟨hfind, hq⟩ := hc
    have hask := (q.run_breaks hs (ht.find? hfind).1 h hq)
    exact .after (Table.perform_bag hfind reg) hask.bind
  | bind new m =>
    have hbind (hm : (m.run t).Breaks reg) : ((Command.bind new m).run t).Breaks reg := hm.bind
    refine hbind ?_
    cases m with
    | view name st =>
      obtain ⟨hfind, hst⟩ := hc
      exact .after (Table.perform_bag hfind reg) (ViewStep.run_breaks h hst).bind
    | walk name visit =>
      obtain ⟨hfind, hvisit⟩ := hc
      have hvisit := Visit.run_breaks hs (ht.find? hfind).1 h hvisit
      exact .after (Table.perform_bag hfind reg) hvisit.bind
    | copyEntries name =>
      exact .after (Table.perform_bag hc reg) (breaks_reading h.entries).bind
    | copyElements name =>
      exact .after (Table.perform_bag hc reg) (breaks_reading (h.scan .ascending)).bind
    | walkElements name d =>
      obtain ⟨u, hfind, rfl⟩ := hc
      have hfollow := ha.follow_live (ht.find? hfind) u.link
      exact .after (Table.perform_elements hfind reg) (u.scanTowards_breaks hfollow h d).bind
    | elements name st =>
      obtain ⟨u, hfind, rfl, hst⟩ := hc
      have hfollow := ha.follow_live (ht.find? hfind) u.link
      exact .after (Table.perform_elements hfind reg) (ElementStep.run_breaks hfollow h hst).bind
    | walkEntries name =>
      obtain ⟨u, hfind, rfl⟩ := hc
      have hfollow := ha.follow_live (ht.find? hfind) .weak
      have hscan : u.scan.Breaks reg :=
        EntrySet.bag_breaks hfollow (breaks_reading (h.scan .ascending))
      exact .after (Table.perform_entries hfind reg) hscan.bind
    | _ => exact hc.elim
  | change target ch =>
    cases ch with
    | absorb name =>
      obtain ⟨hfind, s, hs'⟩ := hc
      have habsorb : ((Change.absorb name).run t s).Breaks reg :=
        .after (Table.perform_bag hfind reg) (breaks_reading (h.scan .ascending)).bind
      exact .after (Table.perform_source hs' reg) habsorb.bind
    | _ => exact hc.elim
  | askElements name q =>
    obtain ⟨u, hfind, rfl⟩ := hc
    have hask := q.run_breaks (ha.follow_live (ht.find? hfind) u.link) h
    exact .after (Table.perform_elements hfind reg) hask.bind
  | askEntries name q =>
    obtain ⟨u, hfind, rfl⟩ := hc
    have hask := q.run_breaks (ha.follow_live (ht.find? hfind) .weak) h
    exact .after (Table.perform_entries hfind reg) hask.bind
  | _ => exact hc.elim

end Command.Consults

end OrderedBag
