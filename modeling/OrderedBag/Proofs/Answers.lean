import OrderedBag.Proofs.Building
import OrderedBag.Proofs.Lookup
import OrderedBag.Session.Query

/-!
# Answers

What a bag or a set answers depends on two things alone: its order, and the list of entries that it
shows. So does the entry that the question removes, if it removes one. Only whether the bag is empty
is looked up in the running total, and may not agree with the list.

* `BagQuery.run_gives`, `ElementQuery.run_gives`, `EntryQuery.run_gives` — every question answers
  what the order and the list say, and leaves all other entries
* `ViewStep.run_gives`, `ElementStep.run_gives` — a step is refused exactly when its endpoints are
  crossed
-/

namespace OrderedBag

open OrderedBag.Action

variable {α : Type}

theorem Action.reading_answers {β : Type} {reg : Registry α} {g : Registry α → Except Failure β}
    {o : Except Failure β} (h : g reg = o) : (reading g).Answers reg o :=
  h ▸ answers_reading g

/-- What follows an opened traversal that is drained. -/
theorem Action.Answers.drain {reg : Registry α} {a : Action α (Traversal α)} {t : Traversal α}
    (ha : a.Answers reg (.ok t)) (g : List (Entry α) → Answer α) :
    (do return g (← (← a).drain) : Action α (Answer α)).Answers reg
      (.ok (g (t.remaining reg.contents))) :=
  ha.bind_ok fun _ => (answers_get.map fun reg : Registry α => t.remaining reg.contents).map g

/-! ## Views that can be asked -/

/-- A view can be asked everything: it has a node, every reference on the way down leads somewhere,
and the source can be reached from its views. -/
structure View.Intact (reg : Registry α) (v : View α) : Prop where
  houses : reg.Houses v
  reach : reg.canReach v = true
  attached : v.root.access ≠ .detached

namespace View

variable {reg reg' : Registry α} {v : View α}

theorem isDetached_eq_false (h : v.root.access ≠ .detached) : v.isDetached = false := by
  cases v with
  | source s => exact beq_false_of_ne h
  | range n s r => rfl
  | descending n link f => rfl

/-- A reference to a view that exists can be followed. -/
theorem follow_eq_ok (hl : reg.Live v) (hatt : v.root.access ≠ .detached) (link : Link) :
    reg.follow link v = .ok () := by
  cases link with
  | strong => rfl
  | weak =>
    rw [Registry.follow_weak, Registry.canUpgrade, hl.2, isDetached_eq_false hatt]
    rfl

theorem Intact.usable (hv : v.Intact reg) (hs : reg.Sound) : v.Usable reg :=
  hs.usable hv.houses hv.reach

theorem Intact.moves (hv : v.Intact reg) (hm : reg.Moves reg') : v.Intact reg' :=
  ⟨hv.houses.moves hm, Registry.canReach_of_moves hv.reach hm, hv.attached⟩

theorem extreme?_answers (hu : v.Usable reg) (d : Direction) :
    (Action.reading fun reg => v.extreme? reg d).Answers reg
      (.ok (d.extreme? (v.listing reg.contents))) :=
  reading_answers (extreme?_eq hu d)

theorem size_answers (hw : reg.arithmetic = .wrapping) (hu : v.Usable reg) :
    (Action.reading fun reg => v.size reg).Answers reg
      (.ok (wrap (totalCount (v.listing reg.contents)))) :=
  reading_answers (size_eq hw hu)

theorem distinctSize_answers (hu : v.Usable reg) :
    (Action.reading fun reg => v.distinctSize reg).Answers reg
      (.ok (v.listing reg.contents).length) :=
  reading_answers (distinctSize_eq hu)

theorem isEmpty_answers (hu : v.Usable reg) :
    (Action.reading fun reg => v.isEmpty reg).Answers reg (.ok (v.vacant reg.contents)) :=
  reading_answers (isEmpty_eq hu)

/-- What an opened traversal has ahead of it is drained. -/
theorem drain_scan_answers (hu : v.Usable reg) (d : Direction) :
    (do (← Action.reading fun reg => v.scan reg d).drain : Action α (List (Entry α))).Answers reg
      (.ok (d.orient (v.listing reg.contents))) := by
  obtain ⟨t, hscan, -, hrem⟩ := scan_spec hu d
  have hread : (Action.reading fun reg => v.scan reg d).Answers reg (.ok t) := reading_answers hscan
  refine hread.bind_ok fun l => ?_
  rw [← hrem]
  exact answers_get.map fun reg : Registry α => t.remaining reg.contents

theorem require_answers (c : Comparator α) (q : IntervalExpr α) (reg : Registry α) :
    (q.require c).Answers reg (Interval.demand (q.eval c)) := by
  unfold IntervalExpr.require
  cases q.eval c with
  | some r => exact answers_pure r
  | none => exact (answers_record _).bind_ok fun _ => answers_throw _

/-- Crossed endpoints are refused, as they are read in the order of the view. -/
theorem scanExpr_refused (hs : reg.Sound) (hh : reg.Houses v) (hreach : reg.canReach v = true)
    (d : Direction) {q : IntervalExpr α} (hq : q.eval v.order = none) :
    (v.scanExpr d q).Gives reg (.error .invalidRange) reg.contents := by
  refine (comparator_gives hs hh hreach).bind_ok fun reg' _ hk => ?_
  have hrequire := require_answers v.order q reg'
  rw [hq] at hrequire
  rw [← hk]
  exact hrequire.bind_error.gives

theorem scanExpr_gives (hs : reg.Sound) (hh : reg.Houses v) (hreach : reg.canReach v = true)
    (d : Direction) {q : IntervalExpr α} {r : Interval α} (hq : q.eval v.order = some r) :
    ∃ t, (v.scanExpr d q).Gives reg (.ok t) reg.contents ∧ t.remaining reg.contents =
      d.orient ((v.listing reg.contents).filter fun e => r.contains v.order e.element) := by
  -- the comparator may be remembered on the way, so the visit starts in another registry
  obtain ⟨reg', hcomp, hm, hk⟩ := comparator_gives hs hh hreach
  have hrequire := require_answers v.order q reg'
  rw [hq] at hrequire
  obtain ⟨l, hl⟩ := hrequire
  have hu := ((hs.moves hm).usable (hh.moves hm)
    (Registry.canReach_of_moves hreach hm)).withLog l
  obtain ⟨t, hscan, -, hrem⟩ := scanWithin_spec hu d r
  rw [Registry.contents_withLog, hk] at hrem
  have hread := perform_reading (fun reg => v.scanWithin reg d r) (reg'.withLog l)
  rw [hscan] at hread
  refine ⟨t, ⟨reg'.withLog l, ?_, hm.trans (reg'.moves_withLog l), hk⟩, hrem⟩
  exact (perform_bind_ok hcomp).trans ((perform_bind_ok hl).trans hread)

end View

/-! ## Bags -/

namespace BagQuery

variable [Shown α] {reg : Registry α} {v : View α}

/-- What a bag answers, given its order, the entries that it shows, and whether it says that there
is none. -/
def answer (c : Comparator α) (es : List (Entry α)) (vacant : Bool) :
    BagQuery α → Except Failure (Answer α)
  | entries d => .ok (.entries (d.orient es))
  | within d q =>
    (Interval.demand (q.eval c)).map fun r =>
      .entries (d.orient (es.filter fun e => r.contains c e.element))
  | extreme d => .ok (.maybeEntry (d.extreme? es))
  | poll d => .ok (.maybeEntry (d.extreme? es))
  | take x => .ok (.maybeEntry (c.find? es x))
  | count x => .ok (.number (((c.find? es x).map Entry.count).getD 0))
  | contains x => .ok (.flag (c.find? es x).isSome)
  | size => .ok (.number (wrap (totalCount es)))
  | distinctSize => .ok (.number es.length)
  | isEmpty => .ok (.flag vacant)
  | occurrences limit => .ok (.elements ((es.flatMap Entry.occurrences).take limit))
  | debug => .ok (.text (sketchEntries es).compact)
  | pretty => .ok (.text (sketchEntries es).pretty)

omit [Shown α] in
/-- The entry that goes when a bag is asked. -/
def victim (c : Comparator α) (es : List (Entry α)) : BagQuery α → Option (Entry α)
  | poll d => d.extreme? es
  | take x => c.find? es x
  | _ => none

omit [Shown α] in
/-- Whether a question counts an element, for which the source may have to build a range. -/
def counts : BagQuery α → Bool
  | count _ | contains _ => true
  | _ => false

/-- A bag answers what its order and its entries say, and at most one entry goes. Only to count does
the source have to be reached from its views. -/
theorem run_gives_of_reach (hs : reg.Sound) (hh : reg.Houses v) (hreach : reg.canReach v = true)
    (q : BagQuery α) (hatt : q.counts = false ∨ v.root.access ≠ .detached) :
    (q.run v).Gives reg (q.answer v.order (v.listing reg.contents) (v.vacant reg.contents))
      (v.without reg.contents (q.victim v.order (v.listing reg.contents))) := by
  have hu := hs.usable hh hreach
  cases q with
  | entries d => exact ((View.drain_scan_answers hu d).map Answer.entries).gives
  | within d q =>
    cases hq : q.eval v.order with
    | none =>
      rw [answer, hq]
      exact (v.scanExpr_refused hs hh hreach d hq).bind_error
    | some r =>
      rw [answer, hq]
      obtain ⟨t, hscan, hrem⟩ := v.scanExpr_gives hs hh hreach d hq
      refine hscan.bind_ok fun reg' _ hk => ?_
      show Gives _ reg' (.ok (Answer.entries _)) reg.contents
      rw [← hrem, ← hk]
      exact ((answers_get.map fun reg : Registry α => t.remaining reg.contents).map
        Answer.entries).gives
  | extreme d => exact ((View.extreme?_answers hu d).map Answer.maybeEntry).gives
  | poll d => exact (View.poll_gives hs hh hreach d).map Answer.maybeEntry
  | take x => exact (View.take_gives hs hh hreach x).map Answer.maybeEntry
  | count x =>
    have hatt := hatt.resolve_left Bool.true_eq_false.mp
    exact ((View.count_answers hu hatt x).map Answer.number).gives
  | contains x =>
    have hatt := hatt.resolve_left Bool.true_eq_false.mp
    exact ((View.contains_answers hu hatt x).map Answer.flag).gives
  | size => exact ((View.size_answers hs.wrapping hu).map Answer.number).gives
  | distinctSize => exact ((View.distinctSize_answers hu).map Answer.number).gives
  | isEmpty => exact ((View.isEmpty_answers hu).map Answer.flag).gives
  | occurrences limit =>
    obtain ⟨o, ho, htake⟩ := View.occurrences_spec hu
    have hread : (Action.reading v.occurrences).Answers reg (.ok o) := reading_answers ho
    refine (hread.bind_ok fun l => ?_).gives
    show Answers _ _ (.ok (Answer.elements _))
    rw [← htake]
    exact answers_get.map fun reg : Registry α => Answer.elements (o.take reg.contents limit)
  | debug =>
    exact ((View.drain_scan_answers hu .ascending).map fun es =>
      Answer.text (sketchEntries es).compact).gives
  | pretty =>
    exact ((View.drain_scan_answers hu .ascending).map fun es =>
      Answer.text (sketchEntries es).pretty).gives

theorem run_gives (hs : reg.Sound) (hv : v.Intact reg) (q : BagQuery α) :
    (q.run v).Gives reg (q.answer v.order (v.listing reg.contents) (v.vacant reg.contents))
      (v.without reg.contents (q.victim v.order (v.listing reg.contents))) :=
  run_gives_of_reach hs hv.houses hv.reach q (.inr hv.attached)

end BagQuery

/-! ## Element sets -/

/-- A set of elements can be asked everything. -/
structure ElementSet.Intact (reg : Registry α) (s : ElementSet α) : Prop where
  view : s.view.Intact reg
  follow : reg.follow s.link s.view = .ok ()

/-- The last element before an endpoint. -/
def Comparator.lastBefore (c : Comparator α) (es : List (Entry α)) (hi : Endpoint α) : Option α :=
  (Direction.descending.extreme? (es.filter fun e =>
    (Interval.upTo hi).contains c e.element)).map Entry.element

/-- The first element after an endpoint. -/
def Comparator.firstAfter (c : Comparator α) (es : List (Entry α)) (lo : Endpoint α) : Option α :=
  (Direction.ascending.extreme? (es.filter fun e =>
    (Interval.downTo lo).contains c e.element)).map Entry.element

namespace ElementSet

variable {reg : Registry α} {s : ElementSet α}

theorem perform_bag (hf : reg.follow s.link s.view = .ok ()) :
    s.bag.perform reg = (.ok s.view, reg) :=
  perform_bind_ok (perform_follow_ok hf)

/-- The entries whose elements are in the set, as a visit of the set has them ahead of it. -/
theorem scan_answers (hu : s.view.Usable reg) (hf : reg.follow s.link s.view = .ok ()) :
    ∃ t, s.scan.Answers reg (.ok t) ∧
      t.remaining reg.contents = s.view.listing reg.contents := by
  obtain ⟨t, hscan, -, hrem⟩ := View.scan_spec hu .ascending
  have hread : (Action.reading fun reg => s.view.scan reg .ascending).Answers reg (.ok t) :=
    reading_answers hscan
  exact ⟨t, .after (perform_bag hf) hread, hrem⟩

theorem descending_answers (hf : reg.follow s.link s.view = .ok ()) :
    s.descending.Answers reg (.ok ⟨.strong, .descending none .strong s.view⟩) :=
  .after (perform_bag hf) ((answers_record _).bind_ok fun _ =>
    (answers_record _).bind_ok fun _ => answers_pure _)

/-- Going down, the descending set is visited. -/
theorem scanTowards_answers (hu : s.view.Usable reg) (hf : reg.follow s.link s.view = .ok ())
    (d : Direction) :
    ∃ t, (s.scanTowards d).Answers reg (.ok t) ∧
      t.remaining reg.contents = d.orient (s.view.listing reg.contents) := by
  cases d with
  | ascending => exact scan_answers hu hf
  | descending =>
    obtain ⟨l, hl⟩ := descending_answers hf
    have hturned : (View.descending none .strong s.view).Usable reg := ⟨hu.reach, hu.valid⟩
    obtain ⟨t, ⟨l', hscan⟩, hrem⟩ :=
      scan_answers (s := ⟨.strong, .descending none .strong s.view⟩) (hturned.withLog l) rfl
    exact ⟨t, ⟨l', (perform_bind_ok hl).trans hscan⟩, hrem⟩

/-- The last element before an endpoint and the first one after it are those of a narrower view. -/
theorem lastBefore_answers (h : s.Intact reg) (hu : s.view.Usable reg) (hi : Endpoint α) :
    (s.lastBefore hi).Answers reg
      (.ok (s.view.order.lastBefore (s.view.listing reg.contents) hi)) := by
  refine .after (perform_bag h.follow) ?_
  refine (View.narrow_ok hu h.view.attached (.upTo hi)).bind_ok fun l => ?_
  have hread := View.extreme?_answers ((hu.narrowed (.upTo hi)).withLog l) .descending
  rw [View.listing_narrowed] at hread
  exact hread.map fun e? : Option (Entry α) => e?.map Entry.element

theorem firstAfter_answers (h : s.Intact reg) (hu : s.view.Usable reg) (lo : Endpoint α) :
    (s.firstAfter lo).Answers reg
      (.ok (s.view.order.firstAfter (s.view.listing reg.contents) lo)) := by
  refine .after (perform_bag h.follow) ?_
  refine (View.narrow_ok hu h.view.attached (.downTo lo)).bind_ok fun l => ?_
  have hread := View.extreme?_answers ((hu.narrowed (.downTo lo)).withLog l) .ascending
  rw [View.listing_narrowed] at hread
  exact hread.map fun e? : Option (Entry α) => e?.map Entry.element

end ElementSet

namespace ElementQuery

variable [Shown α] {reg : Registry α} {s : ElementSet α}

/-- What a set answers, given its order, the entries whose elements are in it, and whether the view
behind it says that there is none. -/
def answer (c : Comparator α) (es : List (Entry α)) (vacant : Bool) :
    ElementQuery α → Except Failure (Answer α)
  | extreme d =>
    match d.extreme? es with
    | some e => .ok (.element e.element)
    | none => .error .noSuchElement
  | lower x => .ok (.maybeElement (c.lastBefore es ⟨x, .exclusive⟩))
  | floor x => .ok (.maybeElement (c.lastBefore es ⟨x, .inclusive⟩))
  | ceiling x => .ok (.maybeElement (c.firstAfter es ⟨x, .inclusive⟩))
  | higher x => .ok (.maybeElement (c.firstAfter es ⟨x, .exclusive⟩))
  | poll d => .ok (.maybeElement ((d.extreme? es).map Entry.element))
  | contains x => .ok (.flag (c.find? es x).isSome)
  | remove x => .ok (.flag (c.find? es x).isSome)
  | isEmpty => .ok (.flag vacant)
  | size => .ok (.number es.length)
  | elements d => .ok (.elements ((d.orient es).map Entry.element))
  | debug => .ok (.text (sketchElements es).compact)
  | pretty => .ok (.text (sketchElements es).pretty)

omit [Shown α] in
/-- The entry that goes when a set is asked. -/
def victim (c : Comparator α) (es : List (Entry α)) : ElementQuery α → Option (Entry α)
  | poll d => d.extreme? es
  | remove x => c.find? es x
  | _ => none

/-- A set answers what its order and its entries say, and at most one entry goes. -/
theorem run_gives (hs : reg.Sound) (h : s.Intact reg) (q : ElementQuery α) :
    (q.run s).Gives reg
      (q.answer s.view.order (s.view.listing reg.contents) (s.view.vacant reg.contents))
      (s.view.without reg.contents
        (q.victim s.view.order (s.view.listing reg.contents))) := by
  have hu := h.view.usable hs
  have hbag := ElementSet.perform_bag h.follow
  cases q with
  | extreme d =>
    have hextreme : (s.extreme? d).Answers reg
        (.ok (d.extreme? (s.view.listing reg.contents))) :=
      .after hbag (View.extreme?_answers hu d)
    have hmust : (s.extreme d).Answers reg (match d.extreme? (s.view.listing reg.contents) with
        | some e => .ok e.element
        | none => .error .noSuchElement) := by
      refine hextreme.bind_ok fun l => ?_
      cases d.extreme? (s.view.listing reg.contents) with
      | some e => exact answers_pure e.element
      | none => exact answers_throw _
    have hanswer := (hmust.map Answer.element).gives
    rw [answer]
    revert hanswer
    cases d.extreme? (s.view.listing reg.contents) <;> exact id
  | lower x => exact ((s.lastBefore_answers h hu _).map Answer.maybeElement).gives
  | floor x => exact ((s.lastBefore_answers h hu _).map Answer.maybeElement).gives
  | ceiling x => exact ((s.firstAfter_answers h hu _).map Answer.maybeElement).gives
  | higher x => exact ((s.firstAfter_answers h hu _).map Answer.maybeElement).gives
  | poll d =>
    have hpoll : (s.poll d).Gives reg
        (.ok ((d.extreme? (s.view.listing reg.contents)).map Entry.element)) _ :=
      .after hbag ((View.poll_gives hs h.view.houses h.view.reach d).map fun e? =>
        e?.map Entry.element)
    exact hpoll.map Answer.maybeElement
  | contains x =>
    have hcontains : (s.contains x).Answers reg _ :=
      .after hbag (View.contains_answers hu h.view.attached x)
    exact (hcontains.map Answer.flag).gives
  | remove x =>
    have hremove : (s.remove x).Gives reg _ _ :=
      .after hbag ((View.take_gives hs h.view.houses h.view.reach x).map Option.isSome)
    exact hremove.map Answer.flag
  | isEmpty =>
    have hempty : s.isEmpty.Answers reg _ := .after hbag (View.isEmpty_answers hu)
    exact (hempty.map Answer.flag).gives
  | size =>
    have hsize : s.size.Answers reg _ := .after hbag (View.distinctSize_answers hu)
    exact (hsize.map Answer.number).gives
  | elements d =>
    obtain ⟨t, hscan, hrem⟩ := s.scanTowards_answers hu h.follow d
    rw [answer, ← hrem]
    exact (hscan.drain _).gives
  | debug =>
    obtain ⟨t, hscan, hrem⟩ := s.scan_answers hu h.follow
    rw [answer, ← hrem]
    exact (hscan.drain _).gives
  | pretty =>
    obtain ⟨t, hscan, hrem⟩ := s.scan_answers hu h.follow
    rw [answer, ← hrem]
    exact (hscan.drain _).gives

end ElementQuery

/-! ## Entry sets -/

/-- A set of entries can be asked everything. -/
structure EntrySet.Intact (reg : Registry α) (s : EntrySet α) : Prop where
  view : s.view.Intact reg
  follow : reg.follow .weak s.view = .ok ()

namespace EntrySet

variable {reg : Registry α} {s : EntrySet α}

theorem perform_bag (hf : reg.follow .weak s.view = .ok ()) :
    s.bag.perform reg = (.ok s.view, reg) :=
  perform_bind_ok (perform_follow_ok hf)

/-- A visit of the set has the entries of its view ahead of it. -/
theorem scan_answers (hu : s.view.Usable reg) (hf : reg.follow .weak s.view = .ok ()) :
    ∃ t, s.scan.Answers reg (.ok t) ∧
      t.remaining reg.contents = s.view.listing reg.contents := by
  obtain ⟨t, hscan, -, hrem⟩ := View.scan_spec hu .ascending
  have hread : (Action.reading fun reg => s.view.scan reg .ascending).Answers reg (.ok t) :=
    reading_answers hscan
  exact ⟨t, .after (perform_bag hf) hread, hrem⟩

end EntrySet

namespace EntryQuery

variable [Shown α] {reg : Registry α} {s : EntrySet α}

/-- What a set answers, given its order, its entries, and whether the view behind it says that there
is none. -/
def answer (c : Comparator α) (es : List (Entry α)) (vacant : Bool) : EntryQuery α → Answer α
  | entries => .entries es
  | size => .number es.length
  | isEmpty => .flag vacant
  | contains e => .flag (((c.find? es e.element).map Entry.count).getD 0 == e.count)
  | display => .text (displayEntries es)
  | debug => .text (sketchEntries es).compact
  | pretty => .text (sketchEntries es).pretty

/-- A set answers what its order and its entries say, and no entry goes. -/
theorem run_answers (hs : reg.Sound) (h : s.Intact reg) (q : EntryQuery α) :
    (q.run s).Answers reg (.ok
      (q.answer s.view.order (s.view.listing reg.contents) (s.view.vacant reg.contents))) := by
  have hu := h.view.usable hs
  have hbag := EntrySet.perform_bag h.follow
  obtain ⟨t, hscan, hrem⟩ := EntrySet.scan_answers hu h.follow
  rw [← hrem]
  cases q with
  | entries => exact hscan.drain Answer.entries
  | size =>
    have hsize : s.size.Answers reg _ := .after hbag (View.distinctSize_answers hu)
    rw [hrem]
    exact hsize.map Answer.number
  | isEmpty =>
    have hempty : s.isEmpty.Answers reg _ := .after hbag (View.isEmpty_answers hu)
    exact hempty.map Answer.flag
  | contains e =>
    have hcontains : (s.contains e).Answers reg _ :=
      .after hbag ((View.count_answers hu h.view.attached e.element).map (· == e.count))
    rw [hrem]
    exact hcontains.map Answer.flag
  | display => exact hscan.drain fun es => .text (displayEntries es)
  | debug => exact hscan.drain fun es => .text (sketchEntries es).compact
  | pretty => exact hscan.drain fun es => .text (sketchEntries es).pretty

end EntryQuery

/-! ## Steps -/

theorem View.sub_ok {reg : Registry α} {v : View α} (hv : v.Intact reg) {lo hi : Endpoint α}
    {q : Interval α} (hq : Interval.between? v.order lo hi = some q) :
    (v.sub lo hi).Answers reg (.ok (v.narrowed q)) := by
  have h := sub_answers v lo hi reg
  rw [Registry.reach_eq_ok hv.reach, hq, attached_eq_ok hv.attached] at h
  exact h

namespace ViewStep

variable {reg : Registry α} {v : View α}

/-- Whether a step asks for crossed endpoints, which are compared in the order of the view. -/
def refused (c : Comparator α) : ViewStep α → Bool
  | sub lo hi => (Interval.between? c lo hi).isNone
  | head _ | tail _ | reversed | itself => false

theorem run_refused (hv : v.Intact reg) {st : ViewStep α} (h : st.refused v.order = true) :
    (st.run v).Answers reg (.error .invalidRange) := by
  cases st with
  | sub lo hi =>
    have hsub := View.sub_answers v lo hi reg
    rw [Registry.reach_eq_ok hv.reach, Option.isNone_iff_eq_none.mp h] at hsub
    exact hsub
  | head hi => cases h
  | tail lo => cases h
  | reversed => cases h
  | itself => cases h

/-- A step succeeds unless it is refused. -/
theorem run_gives (hs : reg.Sound) (hl : reg.Live v) (hv : v.Intact reg) {st : ViewStep α}
    (h : st.refused v.order = false) : ∃ w, (st.run v).Gives reg (.ok w) reg.contents := by
  have hu := hv.usable hs
  cases st with
  | head hi => exact ⟨_, (View.narrow_ok hu hv.attached _).gives⟩
  | tail lo => exact ⟨_, (View.narrow_ok hu hv.attached _).gives⟩
  | sub lo hi =>
    obtain ⟨q, hq⟩ := Option.isSome_iff_exists.mp (Option.isNone_eq_false_iff.mp h)
    exact ⟨_, (View.sub_ok hv hq).gives⟩
  | reversed =>
    cases hup : v.isDescending with
    | false =>
      obtain ⟨j, reg', hperform, hm, hk, -⟩ := View.reversed_up hs hl hup
      exact ⟨_, reg', hperform, hm, hk⟩
    | true =>
      cases v with
      | source s => simp [View.isDescending] at hup
      | range n s r => simp [View.isDescending] at hup
      | descending n link f =>
        have hperform := View.reversed_down n link f reg
        rw [hu.forward.1] at hperform
        exact ⟨f, reg, hperform, .refl, rfl⟩
  | itself =>
    cases v with
    | source s => exact ⟨_, reg, congrArg (Action.perform · reg) (if_neg hv.attached), .refl, rfl⟩
    | range n s r => exact ⟨_, reg, rfl, .refl, rfl⟩
    | descending n link f => exact ⟨_, reg, rfl, .refl, rfl⟩

end ViewStep

namespace ElementStep

variable {reg : Registry α} {s : ElementSet α}

/-- What a step asks of the view behind a set. -/
def onView : ElementStep α → ViewStep α
  | head hi => .head hi
  | tail lo => .tail lo
  | sub lo hi => .sub lo hi
  | descending => .reversed

theorem run_refused (h : s.Intact reg) {st : ElementStep α}
    (hst : st.onView.refused s.view.order = true) :
    (st.run s).Answers reg (.error .invalidRange) := by
  cases st with
  | sub lo hi =>
    have hsub := ViewStep.run_refused h.view hst
    exact .after (ElementSet.perform_bag h.follow) hsub.bind_error
  | head hi => cases hst
  | tail lo => cases hst
  | descending => cases hst

/-- A step succeeds unless it is refused. -/
theorem run_answers (hu : s.view.Usable reg) (h : s.Intact reg) {st : ElementStep α}
    (hst : st.onView.refused s.view.order = false) : ∃ t, (st.run s).Answers reg (.ok t) := by
  have hkeep {a : View α → Action α (View α)} {w : View α}
      (ha : (a s.view).Answers reg (.ok w)) :
      (do ElementSet.keeping (← a (← s.bag)) : Action α (ElementSet α)).Answers reg
        (.ok ⟨.strong, w⟩) :=
    .after (ElementSet.perform_bag h.follow)
      (ha.bind_ok fun _ => (answers_record _).bind_ok fun _ => answers_pure _)
  cases st with
  | head hi => exact ⟨_, hkeep (a := fun v => v.head hi) (View.narrow_ok hu h.view.attached _)⟩
  | tail lo => exact ⟨_, hkeep (a := fun v => v.tail lo) (View.narrow_ok hu h.view.attached _)⟩
  | sub lo hi =>
    obtain ⟨q, hq⟩ := Option.isSome_iff_exists.mp (Option.isNone_eq_false_iff.mp hst)
    exact ⟨_, hkeep (a := fun v => v.sub lo hi) (View.sub_ok h.view hq)⟩
  | descending => exact ⟨_, ElementSet.descending_answers h.follow⟩

end ElementStep

end OrderedBag
