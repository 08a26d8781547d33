import OrderedBag.Proofs.Table
import OrderedBag.Session.Basic

/-!
# Every command makes moves only

Whatever a command does to a registry is a sequence of moves, and afterwards every handle of the
table is live. The only demand is that counts are counts: from one to `maxCount`.

* `Making.view_ends`, `Making.elements_ends` — which view or set a name comes to stand for
* `Making.Origin` — where the view of a new handle comes from
* `Making.run_ends` — every new handle is live, and its view has an origin
* `Command.run_ends` — so is every handle of the table after a command
-/

namespace OrderedBag

open OrderedBag.Action

variable {α β : Type} {reg : Registry α} {t : Table α}

/-! ## Counts -/

/-- The counts in a description are counts of an entry. -/
def Making.Valid : Making α → Prop
  | ofEntries es => ∀ e ∈ es, e.Valid
  | _ => True

/-- The counts in a description are counts of an entry. -/
def Change.Valid : Change α → Prop
  | insertMany _ n => 1 ≤ n ∧ n ≤ maxCount
  | _ => True

/-- The counts in a command are counts of an entry. -/
def Command.Valid : Command α → Prop
  | bind _ making => making.Valid
  | change _ c => c.Valid
  | _ => True

/-! ## Where views come from -/

/-- The view that a handle holds or refers to. -/
def Handle.view? : Handle α → Option (View α)
  | bag v | weak v => some v
  | elements s => some s.view
  | entries s => some s.view
  | walk _ | comparator _ => none

/-- Where the view of a new handle comes from. -/
inductive Making.Origin (t : Table α) : Making α → Handle α → View α → Prop
  /-- It is a source. -/
  | source {m : Making α} {h : Handle α} (s : Source α) : Origin t m h (.source s)
  /-- It is the view of another handle. -/
  | shared {m : Making α} {h h' : Handle α} {name : String} {v : View α}
      (hname : t.find? name = some h') (hv : h'.view? = some v) : Origin t m h v
  /-- A step made it from the view of another handle. -/
  | view {name : String} {st : ViewStep α} {v w : View α}
      (hname : t.find? name = some (.bag v)) : Origin t (.view name st) (.bag w) w
  /-- A step made its set from the set of another handle. -/
  | elements {name : String} {st : ElementStep α} {s u : ElementSet α}
      (hname : t.find? name = some (.elements s)) :
      Origin t (.elements name st) (.elements u) u.view

/-! ## New sources -/

theorem Registry.live_addSource (reg : Registry α) (c : Comparator α) (a : Access) :
    (reg.addSource c a).2.Live (.source (reg.addSource c a).1) := by
  let v : View α := .source ⟨reg.nodes.size, reg.bags.size, c, a⟩
  have hlive : (reg.push v).Live v := live_push rfl
  obtain ⟨i, hi, halive⟩ := hlive.index
  exact live_of_index (hlive.1.of_nodes rfl) hi halive

theorem Source.makeNatural_ends [Ord α] [Std.TransOrd α] (reg : Registry α) :
    (makeNatural : Action α (Source α)).Ends reg fun s reg' => reg'.Live (.source s) := by
  refine ends_updating ?_ (Registry.live_addSource _ _ _)
  exact (Relation.ReflTransGen.single (.aside rfl rfl rfl)).tail (.source _ _ _)

theorem Sorting.run_orderly (sorting : Sorting α) : (sorting.run t).Orderly reg := by
  cases sorting with
  | evaluated o =>
    have hmove : reg.Moves (reg.evaluate o).2 := .single (.aside rfl rfl rfl)
    exact ⟨hmove, fun _ _ => trivial⟩
  | named name => exact Table.expect_orderly t _ name reg

/-- A new source is live after it was filled. -/
theorem filled_ends {m : Making α} (hs : reg.Sound) {fresh : Action α (Source α)}
    (hfresh : fresh.Ends reg fun s reg' => reg'.Live (.source s)) {fill : Source α → Action α Unit}
    (hfill : ∀ s reg', reg'.Sound → reg'.Houses (.source s) → (fill s).Orderly reg') :
    (do
      let s ← fresh
      fill s
      return .bag (.source s) : Action α (Handle α)).Ends reg fun h reg' => h.Live reg' ∧
        ∀ v, h.view? = some v → m.Origin t h v := by
  refine hfresh.bind fun s reg' hm hl => ?_
  refine (hfill s reg' (hs.moves hm) hl.1).bind fun _ reg'' hm' _ => ?_
  refine ends_pure ⟨hl.moves hm', ?_⟩
  rintro _ ⟨⟩
  exact .source s

/-! ## Copies -/

/-- A view that can be visited can follow its references. -/
theorem View.canReach_of_scan {v : View α} {d : Direction} {w : Traversal α}
    (h : v.scan reg d = .ok w) : reg.canReach v = true := by
  -- a visit follows every reference, so it fails where one of them leads nowhere
  induction v generalizing d with
  | source s => rfl
  | range n s r => rfl
  | descending n link f ih =>
    unfold scan at h
    cases hfollow : reg.follow link f with
    | error e =>
      rw [hfollow] at h
      cases h
    | ok _ =>
      rw [hfollow] at h
      have hf := ih h
      cases link with
      | strong => exact hf
      | weak =>
        rw [Registry.follow_weak] at hfollow
        split at hfollow
        next hup => rw [Registry.canReach, hup, hf]; rfl
        next => cases hfollow

theorem View.canReach_of_entries {v : View α} {es : List (Entry α)} (h : v.entries reg = .ok es) :
    reg.canReach v = true := by
  unfold entries at h
  cases hw : v.scan reg .ascending with
  | error e =>
    rw [hw] at h
    cases h
  | ok w => exact canReach_of_scan hw

/-- The entries of a view have counts. -/
theorem View.count_of_mem_entries (hs : reg.Sound) {v : View α} (hl : reg.Live v)
    {es : List (Entry α)} (h : v.entries reg = .ok es) : ∀ e ∈ es, 1 ≤ e.count := by
  have hu := hs.usable hl.1 (canReach_of_entries h)
  rw [entries_eq hu] at h
  obtain rfl : v.listing reg.contents = es := Except.ok.inj h
  intro e he
  exact (hu.valid.counts e (mem_listing.mp he).1).1

/-! ## Making handles -/

namespace Making

/-- A name comes to stand for the view that a step makes from another name's view. -/
theorem view_ends [Ord α] [Std.TransOrd α] (hs : reg.Sound) (ht : t.Live reg) (name : String)
    (st : ViewStep α) :
    ((Making.view name st).run t).Ends reg fun h reg' => h.Live reg' ∧
      ∃ v w reg'', t.find? name = some (.bag v) ∧ reg.Moves reg'' ∧ reg''.Supports w ∧
        st.Makes v w ∧ h = .bag (reg''.enroll w).1 := by
  refine Table.bag_bind ht fun v hfind hl => ?_
  refine (ViewStep.run_ends hs hl st).bind fun w reg'' hm hw => ?_
  refine (Handle.ofView_ends hw.1).mono fun h reg' hh => ?_
  exact ⟨hh.1, v, w, reg'', hfind, hm, hw.1, hw.2, hh.2⟩

/-- A name comes to stand for the set that a step makes from another name's set. -/
theorem elements_ends [Ord α] [Std.TransOrd α] (hs : reg.Sound) (ht : t.Live reg) (name : String)
    (st : ElementStep α) :
    ((Making.elements name st).run t).Ends reg fun h reg' => h.Live reg' ∧
      ∃ s u reg'', t.find? name = some (.elements s) ∧ reg.Moves reg'' ∧ reg''.Supports u.view ∧
        st.Makes s u ∧ h = .elements { u with view := (reg''.enroll u.view).1 } := by
  refine Table.elements_bind ht fun s hfind hl => ?_
  refine (ElementStep.run_ends hs hl st).bind fun u reg'' hm hu => ?_
  refine (Handle.ofElements_ends hu.1).mono fun h reg' hh => ?_
  exact ⟨hh.1, s, u, reg'', hfind, hm, hu.1, hu.2, hh.2⟩

theorem visit_orderly (hs : reg.Sound) {v : View α} (hl : reg.Live v) (visit : Visit α) :
    (visit.run v).Orderly reg := by
  cases visit with
  | entries d => exact .reading fun _ _ => ends_pure trivial
  | within d q => exact (View.scanExpr_orderly hs hl.1 d q).answer
  | occurrences => exact .reading fun _ _ => ends_pure trivial

/-- Every new handle is live, and its view has an origin. -/
theorem run_ends [Ord α] [Std.TransOrd α] (hs : reg.Sound) (ht : t.Live reg) {m : Making α}
    (hm : m.Valid) : (m.run t).Ends reg fun h reg' => h.Live reg' ∧
      ∀ v, h.view? = some v → m.Origin t h v := by
  cases m with
  | source a sorting =>
    refine (sorting.run_orderly).bind fun c reg' hmoves _ => ?_
    refine Ends.bind (P := fun s reg' => reg'.Live (.source s))
      (ends_updating (.single (.source reg' c a)) (Registry.live_addSource _ _ _)) ?_
    intro s reg'' _ hl
    refine ends_pure ⟨hl, ?_⟩
    rintro _ ⟨⟩
    exact .source s
  | ofElements xs =>
    exact filled_ends hs (Source.makeNatural_ends reg) fun s reg' hs' hh =>
      Source.extend_orderly hs' hh xs
  | ofEntries es =>
    exact filled_ends hs (Source.makeNatural_ends reg) fun s reg' hs' hh =>
      Source.insertEntries_orderly hs' hh fun e he => (hm e he).1
  | copyEntries name =>
    refine Table.bag_bind ht fun v _ hl => .reading fun es hes => ?_
    exact filled_ends hs (Source.makeNatural_ends reg) fun s reg' hs' hh =>
      Source.insertEntries_orderly hs' hh (View.count_of_mem_entries hs hl hes)
  | copyElements name =>
    refine Table.bag_bind ht fun v _ hl => .reading fun w _ => ?_
    exact filled_ends hs (Source.makeNatural_ends reg) fun s reg' hs' hh =>
      Source.absorb_orderly hs' hh w
  | comparator o =>
    have hmove : reg.Moves (reg.evaluate o).2 := .single (.aside rfl rfl rfl)
    exact (ends_updating (Q := fun _ _ => True) hmove trivial).bind fun _ _ _ _ =>
      ends_pure ⟨trivial, nofun⟩
  | weak name =>
    refine Table.bag_bind ht fun v hname hl => ends_pure ⟨hl.1, ?_⟩
    rintro _ ⟨⟩
    exact .shared hname rfl
  | walk name visit =>
    exact Table.bag_bind ht fun v _ hl => (visit_orderly hs hl visit).bind fun _ _ _ _ =>
      ends_pure ⟨trivial, nofun⟩
  | walkElements name d =>
    exact Table.elements_bind ht fun s _ hl => (ElementSet.scanTowards_orderly hl d).bind
      fun _ _ _ _ => ends_pure ⟨trivial, nofun⟩
  | walkEntries name =>
    exact Table.entries_bind ht fun s _ hl => (s.scan_orderly reg).bind fun _ _ _ _ =>
      ends_pure ⟨trivial, nofun⟩
  | view name st =>
    refine (view_ends hs ht name st).mono ?_
    rintro h reg' ⟨hl, v, w, reg'', hname, -, -, -, rfl⟩
    refine ⟨hl, ?_⟩
    rintro _ ⟨⟩
    exact .view hname
  | comparatorOf name =>
    exact Table.bag_bind ht fun v _ hl => (View.comparator_orderly hs hl.1).bind fun _ _ _ _ =>
      ends_pure ⟨trivial, nofun⟩
  | elementSet name =>
    refine Table.bag_bind ht fun v hname hl => ?_
    refine ((View.elementSet_gives hl.1).ends
      (Q := fun s reg' => (Handle.elements s).Live reg' ∧ s.view = v) ?_).bind ?_
    · rintro _ reg' ⟨⟩ hmoves -
      exact ⟨hl.moves hmoves, rfl⟩
    · rintro s reg' - ⟨hl', rfl⟩
      refine ends_pure ⟨hl', ?_⟩
      rintro _ ⟨⟩
      exact .shared hname rfl
  | entrySet name =>
    refine Table.bag_bind ht fun v hname hl => ?_
    refine ((View.entrySet_gives hl.1).ends
      (Q := fun s reg' => (Handle.entries s).Live reg' ∧ s.view = v) ?_).bind ?_
    · rintro _ reg' ⟨⟩ hmoves -
      exact ⟨hl.moves hmoves, rfl⟩
    · rintro s reg' - ⟨hl', rfl⟩
      refine ends_pure ⟨hl', ?_⟩
      rintro _ ⟨⟩
      exact .shared hname rfl
  | elements name st =>
    refine (elements_ends hs ht name st).mono ?_
    rintro h reg' ⟨hl, s, u, reg'', hname, -, -, -, rfl⟩
    refine ⟨hl, ?_⟩
    rintro _ ⟨⟩
    exact .elements hname
  | bagOfElements name =>
    refine Table.elements_bind ht fun s hname hl => ElementSet.bag_bind ?_
    refine (Handle.ofView_ends hl.supports).mono ?_
    -- the view of the set has a node, so it is handed out as it is
    rintro h reg' ⟨hl', rfl⟩
    refine ⟨hl', ?_⟩
    rintro _ ⟨⟩
    rw [Registry.enroll_of_houses hl.1]
    exact .shared hname rfl
  | comparatorOfElements name =>
    refine Table.elements_bind ht fun s _ hl => ?_
    have hcomp : s.comparator.Orderly reg := ElementSet.bag_bind (View.comparator_orderly hs hl.1)
    exact hcomp.bind fun _ _ _ _ => ends_pure ⟨trivial, nofun⟩
  | bagOfEntries name =>
    refine Table.entries_bind ht fun s hname hl => EntrySet.bag_bind ?_
    refine (Handle.ofView_ends hl.supports).mono ?_
    rintro h reg' ⟨hl', rfl⟩
    refine ⟨hl', ?_⟩
    rintro _ ⟨⟩
    rw [Registry.enroll_of_houses hl.1]
    exact .shared hname rfl
  | reversedComparator name =>
    exact Table.expect_bind fun _ _ _ _ => ends_pure ⟨trivial, nofun⟩

end Making

/-! ## Questions -/

theorem Change.run_orderly {s : Source α} (hs : reg.Sound) (ht : t.Live reg)
    (hh : reg.Houses (.source s)) {c : Change α} (hc : c.Valid) : (c.run t s).Orderly reg := by
  cases c with
  | insert x =>
    refine (s.insert_orderly hs hh x (Nat.le_refl 1)).bind fun previous reg' _ _ => ?_
    cases s.access <;> exact ends_pure trivial
  | insertMany x n => exact (s.insert_orderly hs hh x hc.1).answer
  | extend xs => exact (s.extend_orderly hs hh xs).bind fun _ _ _ _ => ends_pure trivial
  | absorb name =>
    refine Table.bag_bind ht fun v _ _ => .reading fun w _ => ?_
    exact (s.absorb_orderly hs hh w).bind fun _ _ _ _ => ends_pure trivial
  | remove x => exact (s.remove_orderly hs hh x).answer
  | removeAll x => exact (s.removeAll_orderly hs hh x).answer
  | clear => exact (s.clear_orderly hh).bind fun _ _ _ _ => ends_pure trivial

theorem View.drain_orderly (v : View α) (d : Direction) (reg : Registry α) :
    (v.drain d).Orderly reg :=
  .reading fun _ _ => .after rfl (ends_pure trivial)

section

variable [Shown α]

theorem BagQuery.run_orderly (hs : reg.Sound) {v : View α} (hh : reg.Houses v) (q : BagQuery α) :
    (q.run v).Orderly reg := by
  cases q with
  | entries d => exact (v.drain_orderly d reg).answer
  | within d q =>
    refine (v.scanExpr_orderly hs hh d q).bind fun w reg' _ _ => ?_
    exact Ends.answer (Ends.after (perform_get reg') (ends_pure trivial))
  | extreme d => exact .reading fun _ _ => ends_pure trivial
  | poll d => exact (v.poll_orderly hs hh d).answer
  | take x => exact (v.take_orderly hs hh x).answer
  | count x => exact (v.count_orderly reg x).answer
  | contains x => exact (v.contains_orderly reg x).answer
  | size => exact .reading fun _ _ => ends_pure trivial
  | distinctSize => exact .reading fun _ _ => ends_pure trivial
  | isEmpty => exact .reading fun _ _ => ends_pure trivial
  | occurrences limit => exact .reading fun _ _ => .after rfl (ends_pure trivial)
  | debug => exact (v.drain_orderly .ascending reg).answer
  | pretty => exact (v.drain_orderly .ascending reg).answer

theorem ElementQuery.run_orderly (hs : reg.Sound) {s : ElementSet α} (hl : reg.Live s.view)
    (q : ElementQuery α) : (q.run s).Orderly reg := by
  have hdrain {a : Action α (Traversal α)} (ha : a.Orderly reg) {g : List (Entry α) → Answer α} :
      (do return g (← (← a).drain) : Action α (Answer α)).Orderly reg := by
    refine ha.bind fun w reg' _ _ => ?_
    exact Ends.answer (Ends.after (perform_get reg') (ends_pure trivial))
  cases q with
  | extreme d =>
    refine Ends.answer (g := Answer.element) ((s.extreme?_orderly reg d).bind fun e? reg' _ _ => ?_)
    cases e? with
    | none => exact ends_throw _
    | some e => exact ends_pure trivial
  | lower x => exact (s.lastBefore_orderly hs hl _).answer
  | floor x => exact (s.lastBefore_orderly hs hl _).answer
  | ceiling x => exact (s.firstAfter_orderly hs hl _).answer
  | higher x => exact (s.firstAfter_orderly hs hl _).answer
  | poll d =>
    exact Ends.answer (g := Answer.maybeElement)
      (ElementSet.bag_bind (Ends.answer (s.view.poll_orderly hs hl.1 d)))
  | contains x =>
    exact Ends.answer (g := Answer.flag)
      (ElementSet.bag_bind (s.view.contains_orderly reg x))
  | remove x =>
    exact Ends.answer (g := Answer.flag)
      (ElementSet.bag_bind (Ends.answer (s.view.take_orderly hs hl.1 x)))
  | isEmpty =>
    exact Ends.answer (g := Answer.flag)
      (ElementSet.bag_bind (ends_reading _ fun _ _ => trivial))
  | size =>
    exact Ends.answer (g := Answer.number)
      (ElementSet.bag_bind (ends_reading _ fun _ _ => trivial))
  | elements d => exact hdrain (s.scanTowards_orderly hl d)
  | debug => exact hdrain (s.scan_orderly reg)
  | pretty => exact hdrain (s.scan_orderly reg)

theorem EntryQuery.run_orderly {s : EntrySet α} (q : EntryQuery α) : (q.run s).Orderly reg := by
  have hdrain {g : List (Entry α) → Answer α} :
      (do return g (← (← s.scan).drain) : Action α (Answer α)).Orderly reg := by
    refine (s.scan_orderly reg).bind fun w reg' _ _ => ?_
    exact Ends.answer (Ends.after (perform_get reg') (ends_pure trivial))
  cases q with
  | entries => exact hdrain
  | size =>
    exact Ends.answer (g := Answer.number)
      (EntrySet.bag_bind (ends_reading _ fun _ _ => trivial))
  | isEmpty =>
    exact Ends.answer (g := Answer.flag)
      (EntrySet.bag_bind (ends_reading _ fun _ _ => trivial))
  | contains e =>
    exact Ends.answer (g := Answer.flag)
      (EntrySet.bag_bind (Ends.answer (s.view.count_orderly reg e.element)))
  | display => exact hdrain
  | debug => exact hdrain
  | pretty => exact hdrain

end

theorem ComparatorQuery.run_orderly {c : Comparator α} (q : ComparatorQuery α) :
    (q.run t c).Orderly reg := by
  cases q with
  | compare a b => exact ends_pure trivial
  | equals other => exact (t.expect_orderly _ other reg).answer
  | debug => exact ends_pure trivial

/-! ## Commands -/

theorem Table.same_orderly (first second : String) : (t.same first second).Orderly reg := by
  unfold same
  split
  · exact (t.expect_orderly _ second reg).answer
  · exact (t.expect_orderly _ second reg).answer
  · exact (t.expect_orderly _ first reg).bind fun _ reg' _ _ =>
      (t.expect_orderly _ second reg').answer

/-- Binding a name puts the new handle into the table. -/
theorem Command.bind_ends [Ord α] [Std.TransOrd α] [Shown α] {name : String} {m : Making α}
    {Q : Handle α → Registry α → Prop} (h : (m.run t).Ends reg Q) :
    ((Command.bind name m).run t).Ends reg fun p reg' =>
      ∃ handle, Q handle reg' ∧ p = (.done, t.bind name handle) :=
  h.bind fun handle _ _ hq => ends_pure ⟨handle, hq, rfl⟩

/-- After a command every handle of the table is live, and names are distinct. -/
theorem Command.run_ends [Ord α] [Std.TransOrd α] [Shown α] (hs : reg.Sound) (ht : t.Live reg)
    (hd : t.Distinct) {c : Command α} (hc : c.Valid) :
    (c.run t).Ends reg fun p reg' => p.2.Live reg' ∧ p.2.Distinct := by
  -- most commands leave the table alone
  have hstay {a : Action α (Answer α)} (ha : a.Orderly reg) :
      (do return (← a, t) : Action α (Answer α × Table α)).Ends reg
        fun p reg' => p.2.Live reg' ∧ p.2.Distinct :=
    ha.bind fun _ _ hm _ => ends_pure ⟨ht.moves hm, hd⟩
  cases c with
  | bind name making =>
    refine (Making.run_ends hs ht hc).bind fun h reg' hm hl => ?_
    exact ends_pure ⟨(ht.moves hm).bind hl.1 name, hd.bind name h⟩
  | drop name => exact ends_pure ⟨ht.erase name, hd.erase name⟩
  | isAlive name =>
    exact Table.expect_bind fun _ _ _ _ => .after rfl (ends_pure ⟨ht, hd⟩)
  | same first second =>
    exact (Table.same_orderly first second).bind fun _ _ hm _ => ends_pure ⟨ht.moves hm, hd⟩
  | next name n =>
    refine Table.expect_bind fun h w _ _ => .after (perform_get reg) ?_
    exact ends_pure ⟨ht.bind (h := .walk _) trivial name, hd.bind name _⟩
  | change name c =>
    exact Table.source_bind ht fun s _ hl => hstay (c.run_orderly hs ht hl.1 hc)
  | askBag name q => exact Table.bag_bind ht fun v _ hl => hstay (q.run_orderly hs hl.1)
  | askElements name q => exact Table.elements_bind ht fun s _ hl => hstay (q.run_orderly hs hl)
  | askEntries name q => exact Table.entries_bind ht fun s _ hl => hstay q.run_orderly
  | askComparator name q => exact Table.expect_bind fun _ _ _ _ => hstay q.run_orderly

end OrderedBag
