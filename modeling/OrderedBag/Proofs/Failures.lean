import OrderedBag.Proofs.BrokenViews

/-!
# When views fail

Through a view that is not broken, nothing fails for a view that is gone. Three things ask less of a
view than to read through it: to reach itself, which always works; to be reversed, which fails for
the view's own reference only; and to tell its order, which may be remembered.

* `Command.Consults.survives` — consulting a view that is not broken does not fail for a view that
  is gone
* `View.reversed_outcome` — when reversing fails
* `Session.failures` — what fails, exactly when, and for how long
-/

namespace OrderedBag

open OrderedBag.Action

variable {α β γ : Type}

/-! ## What does not fail for any other view -/

namespace Source

theorem settle_survives (s : Source α) (h : Histogram α) (fits : Bool) (m : Misfit)
    (reg : Registry α) : (s.settle h fits m).Survives reg := by
  have hcheck (reg : Registry α) : (s.checkTotal fits m).Survives reg := by
    refine .after (perform_get reg) ?_
    split <;> simp [Survives]
  refine .after (perform_get reg) ?_
  refine Survives.bind (by simp [Survives]) fun _ reg' _ => ?_
  exact (hcheck reg').bind fun _ reg'' _ => by simp [Survives]

theorem insert_survives (s : Source α) (x : α) (n : Nat) (reg : Registry α) :
    (s.insert x n).Survives reg := by
  refine .after (perform_get reg) ?_
  cases (reg.contents s.bag).insert? s.comparator x n with
  | none => simp [Survives]
  | some h => exact (s.settle_survives h _ _ reg).answer _

theorem insertEntries_survives (s : Source α) (es : List (Entry α)) (reg : Registry α) :
    (s.insertEntries es).Survives reg := by
  induction es generalizing reg with
  | nil => simp [insertEntries, Survives]
  | cons e es ih =>
    exact (s.insert_survives e.element e.count reg).bind fun _ reg' _ => ih reg'

theorem insertTimes_survives (s : Source α) (x : α) (n : Nat) (reg : Registry α) :
    (s.insertTimes x n).Survives reg := by
  induction n generalizing reg with
  | zero => simp [insertTimes, Survives]
  | succ n ih => exact (s.insert_survives x 1 reg).bind fun _ reg' _ => ih reg'

theorem absorb_survives (s : Source α) (t : Traversal α) (reg : Registry α) :
    (s.absorb t).Survives reg := by
  have hupTo (n : Nat) (t : Traversal α) (reg : Registry α) : (s.absorbUpTo n t).Survives reg := by
    induction n generalizing t reg with
    | zero => simp [absorbUpTo, Survives]
    | succ n ih =>
      refine .after (perform_get reg) ?_
      rcases t.next reg.contents with ⟨_ | e, t'⟩
      · simp [Survives]
      · exact (s.insertTimes_survives e.element e.count reg).bind fun _ reg' _ => ih t' reg'
  exact .after (perform_get reg) (hupTo _ t reg)

end Source

section

variable {reg : Registry α} {v : View α}

theorem Visit.run_survives (hs : reg.Sound) (hv : v.Intact reg) (visit : Visit α) :
    (visit.run v).Survives reg := by
  have hu := hv.usable hs
  cases visit with
  | entries d =>
    obtain ⟨w, hscan, -⟩ := View.scan_spec hu d
    exact ((reading_answers hscan).gives.survives (by simp)).answer _
  | within d q =>
    have hexpr : (v.scanExpr d q).Survives reg := by
      cases hq : q.eval v.order with
      | none => exact (View.scanExpr_refused hs hv.houses hv.reach d hq).survives (by simp)
      | some r =>
        obtain ⟨w, hscan, -⟩ := View.scanExpr_gives hs hv.houses hv.reach d hq
        exact hscan.survives (by simp)
    exact hexpr.answer _
  | occurrences =>
    obtain ⟨o, ho, -⟩ := View.occurrences_spec hu
    exact ((reading_answers ho).gives.survives (by simp)).answer _

theorem ViewStep.run_survives (hs : reg.Sound) (hl : reg.Live v) (hv : v.Intact reg)
    (st : ViewStep α) : (st.run v).Survives reg := by
  cases hst : st.refused v.order with
  | true => exact (run_refused hv hst).gives.survives (by simp)
  | false =>
    obtain ⟨w, hw⟩ := run_gives hs hl hv hst
    exact hw.survives (by simp)

/-- Filling a new source does not fail for a view that is gone. -/
theorem filled_survives [Ord α] [Std.TransOrd α] {fill : Source α → Action α Unit}
    (hfill : ∀ s reg, (fill s).Survives reg) (reg : Registry α) :
    (do
      let s ← Source.makeNatural
      fill s
      return .bag (.source s) : Action α (Handle α)).Survives reg :=
  (survives_updating _ reg).bind fun s reg' _ => (hfill s reg').answer _

theorem BagQuery.answer_ne_ownerDropped [Shown α] (c : Comparator α) (es : List (Entry α))
    (vacant : Bool) (q : BagQuery α) : q.answer c es vacant ≠ .error .ownerDropped := by
  cases q with
  | within d q => cases hq : q.eval c <;> simp [answer, hq, Interval.demand, Except.map]
  | _ => simp [answer]

end

namespace Command.Consults

variable [Ord α] [Std.TransOrd α] [Shown α] {reg : Registry α} {t : Table α} {v : View α}
  {c : Command α}

/-- A command that consults an intact view does not fail for a view that is gone. -/
theorem survives (hc : c.Consults t v) (hs : reg.Sound) (ha : reg.Attached) (ht : t.Live reg)
    (hv : v.Intact reg) : (c.run t).Survives reg := by
  have hu := hv.usable hs
  have hset {u : ElementSet α} {name : String} (hfind : t.find? name = some (.elements u))
      (huv : u.view = v) : u.Intact reg :=
    ⟨huv ▸ hv, ha.follow_live (ht.find? hfind) u.link⟩
  cases c with
  | askBag name q =>
    obtain ⟨hfind, -⟩ := hc
    have hask : (q.run v).Survives reg :=
      (q.run_gives hs hv).survives (q.answer_ne_ownerDropped _ _ _)
    exact .after (Table.perform_bag hfind reg) (hask.answer fun a => (a, t))
  | bind new m =>
    have hbind (hm : (m.run t).Survives reg) : ((Command.bind new m).run t).Survives reg :=
      hm.answer _
    cases m with
    | view name st =>
      obtain ⟨hfind, -⟩ := hc
      refine hbind (.after (Table.perform_bag hfind reg) ?_)
      exact (ViewStep.run_survives hs (ht.find? hfind) hv st).bind fun w reg' _ =>
        (survives_updating _ reg').answer _
    | walk name visit =>
      obtain ⟨hfind, -⟩ := hc
      exact hbind (.after (Table.perform_bag hfind reg) ((visit.run_survives hs hv).answer _))
    | copyEntries name =>
      refine hbind (.after (Table.perform_bag hc reg) ?_)
      have hread : (Action.reading v.entries).Survives reg :=
        (reading_answers (View.entries_eq hu)).gives.survives (by simp)
      exact hread.bind fun es reg' _ => filled_survives (fun s => s.insertEntries_survives es) reg'
    | copyElements name =>
      refine hbind (.after (Table.perform_bag hc reg) ?_)
      obtain ⟨w, hscan, -⟩ := View.scan_spec hu .ascending
      have hread : (Action.reading fun reg => v.scan reg .ascending).Survives reg :=
        (reading_answers hscan).gives.survives (by simp)
      exact hread.bind fun w reg' _ => filled_survives (fun s => s.absorb_survives w) reg'
    | walkElements name d =>
      obtain ⟨u, hfind, huv⟩ := hc
      exact Command.Uses.survives (c := .bind new (.walkElements name d)) rfl hs hfind
        (hset hfind huv)
    | elements name st =>
      obtain ⟨u, hfind, huv, -⟩ := hc
      exact Command.Uses.survives (c := .bind new (.elements name st)) rfl hs hfind
        (hset hfind huv)
    | walkEntries name =>
      obtain ⟨u, hfind, rfl⟩ := hc
      obtain ⟨w, hscan, -⟩ := EntrySet.scan_answers hu (ha.follow_live (ht.find? hfind) .weak)
      exact hbind (.after (Table.perform_entries hfind reg)
        ((hscan.gives.survives (by simp)).answer _))
    | _ => exact hc.elim
  | change target ch =>
    cases ch with
    | absorb name =>
      obtain ⟨hfind, s, hs'⟩ := hc
      obtain ⟨w, hscan, -⟩ := View.scan_spec hu .ascending
      have hread : (Action.reading fun reg => v.scan reg .ascending).Survives reg :=
        (reading_answers hscan).gives.survives (by simp)
      have habsorb : ((Change.absorb name).run t s).Survives reg :=
        .after (Table.perform_bag hfind reg) (hread.bind fun w reg' _ =>
          (s.absorb_survives w reg').answer _)
      exact .after (Table.perform_source hs' reg) (habsorb.answer _)
    | _ => exact hc.elim
  | askElements name q =>
    obtain ⟨u, hfind, huv⟩ := hc
    exact Command.Uses.survives (c := .askElements name q) rfl hs hfind (hset hfind huv)
  | askEntries name q =>
    obtain ⟨u, hfind, rfl⟩ := hc
    have hask : (q.run u).Survives reg :=
      (q.run_answers hs ⟨hv, ha.follow_live (ht.find? hfind) .weak⟩).gives.survives (by simp)
    exact .after (Table.perform_entries hfind reg) (hask.answer _)
  | _ => exact hc.elim

end Command.Consults

/-! ## What asks less of a view -/

namespace View

variable {reg : Registry α} {v : View α}

/-- A view reaches itself unless it is a source that its own views cannot reach. -/
theorem perform_reachItself (h : v.isDetached = false) (reg : Registry α) :
    v.reachItself.perform reg = (.ok v, reg) := by
  cases v with
  | source s =>
    have hatt : s.access ≠ .detached := by simpa [isDetached] using h
    exact congrArg (Action.perform · reg) (if_neg hatt)
  | range n s r => rfl
  | descending n link f => rfl

/-- Reversing asks for the view's own reference only. -/
theorem reversed_outcome (hs : reg.Sound) (ha : reg.Attached) (hl : reg.Live v) :
    ((∃ n f, v = descending n .weak f ∧ reg.Gone f) ∧
        v.reversed.perform reg = (.error .ownerDropped, reg)) ∨
      (¬ ∃ n f, v = descending n .weak f ∧ reg.Gone f) ∧
        ∃ w reg', v.reversed.perform reg = (.ok w, reg') := by
  cases hup : v.isDescending with
  | false =>
    obtain ⟨j, reg', hperform, -⟩ := reversed_up hs hl hup
    refine .inr ⟨?_, _, reg', hperform⟩
    rintro ⟨n, f, rfl, -⟩
    simp [isDescending] at hup
  | true =>
    cases v with
    | source s => simp [isDescending] at hup
    | range n s r => simp [isDescending] at hup
    | descending n link f =>
      rw [reversed_down]
      have hf := hl.1.base hs.wellFormed rfl
      have hgone := Registry.canUpgrade_eq_false_iff hf (ha.isDetached_eq_false hf)
      rcases reg.follow_cases n link f with ⟨rfl, hfollow, hcan, -⟩ | ⟨hfollow, -⟩
      · rw [hfollow]
        exact .inl ⟨⟨n, f, rfl, hgone.mp hcan⟩, rfl⟩
      · rw [hfollow]
        refine .inr ⟨?_, f, reg, rfl⟩
        rintro ⟨m, g, heq, hlost⟩
        obtain ⟨-, rfl, rfl⟩ := View.descending.inj heq
        rw [Registry.follow_weak, hgone.mpr hlost] at hfollow
        cases hfollow

end View

namespace Session

/-! ## Failing commands -/

theorem attached_fresh {s : Session α} (ha : s.registry.Attached) : s.fresh.Attached :=
  fun b hb => ha b (hb.of_nodes rfl)

/-- A view that a command consults has a node. -/
theorem houses_of_consults {s : Session α} {c : Command α} {v : View α} (hs : s.Sound)
    (hc : c.Consults s.table v) : s.registry.Houses v := by
  have hbag {name : String} (hfind : s.table.find? name = some (.bag v)) : s.registry.Houses v :=
    (hs.live.find? hfind).1
  have helements {name : String} {u : ElementSet α}
      (hfind : s.table.find? name = some (.elements u)) (huv : u.view = v) :
      s.registry.Houses v := huv ▸ (hs.live.find? hfind).1
  have hentries {name : String} {u : EntrySet α}
      (hfind : s.table.find? name = some (.entries u)) (huv : u.view = v) :
      s.registry.Houses v := huv ▸ (hs.live.find? hfind).1
  cases c with
  | askBag name q => exact hbag hc.1
  | bind new m =>
    cases m with
    | view name st => exact hbag hc.1
    | walk name visit => exact hbag hc.1
    | copyEntries name => exact hbag hc
    | copyElements name => exact hbag hc
    | walkElements name d => exact helements hc.choose_spec.1 hc.choose_spec.2
    | elements name st => exact helements hc.choose_spec.1 hc.choose_spec.2.1
    | walkEntries name => exact hentries hc.choose_spec.1 hc.choose_spec.2
    | _ => exact hc.elim
  | change target ch =>
    cases ch with
    | absorb name => exact hbag hc.1
    | _ => exact hc.elim
  | askElements name q => exact helements hc.choose_spec.1 hc.choose_spec.2
  | askEntries name q => exact hentries hc.choose_spec.1 hc.choose_spec.2
  | _ => exact hc.elim

variable [Ord α] [Std.TransOrd α] [Shown α] {s : Session α} {c : Command α} {v : View α}
  {name : String}

/-- A command that survives does not fail for a view that is gone. -/
theorem outcome_of_survives (h : (c.run s.table).Survives s.fresh) (watched : List String) :
    (s.step watched c).1.outcome ≠ .error .ownerDropped := by
  rw [step_outcome]
  unfold Survives at h
  generalize (c.run s.table).perform s.fresh = p at h
  obtain ⟨_ | ⟨answer, t⟩, reg⟩ := p
  · simpa [Except.map] using h
  · simp [Except.map]

/-- Consulting a view fails for a view that is gone exactly when the view is broken. -/
theorem Sound.consults_iff (hs : s.Sound) (ha : s.registry.Attached) (hc : c.Consults s.table v)
    (watched : List String) :
    ((s.step watched c).1.outcome = .error .ownerDropped ↔ v.Broken s.registry) ∧
      (v.Broken s.registry → (s.step watched c).2.registry.contents = s.registry.contents) := by
  have hbreaks (h : v.Broken s.registry) := step_of_gives watched
    (hc.breaks hs.fresh (attached_fresh ha) hs.live_fresh h)
  refine ⟨⟨fun hfail => ?_, fun h => (hbreaks h).1⟩, fun h => (hbreaks h).2.2⟩
  by_contra hnot
  have hv := (houses_of_consults hs hc).moves s.moves_fresh
  have hintact : v.Intact s.fresh :=
    View.intact_of_not_broken hs.fresh.wellFormed hv
      (attached_fresh ha _ (hv.root hs.fresh.wellFormed)) hnot
  have hsurvives := hc.survives hs.fresh (attached_fresh ha) hs.live_fresh hintact
  exact outcome_of_survives hsurvives watched hfail

/-- A bag can always be reached from itself. -/
theorem Sound.outcome_itself (hs : s.Sound) (ha : s.registry.Attached)
    (hname : s.table.find? name = some (.bag v)) (watched : List String) (new : String) :
    (s.step watched (.bind new (.view name .itself))).1.outcome = .ok .done := by
  have hatt := ha.isDetached_eq_false (hs.live.find? hname).1
  have hself := View.perform_reachItself hatt s.fresh
  have hmake : ((Making.view name .itself).run s.table).perform s.fresh =
      (.ok (.bag (s.fresh.enroll v).1), (s.fresh.enroll v).2) :=
    (perform_bind_ok (Table.perform_bag hname s.fresh)).trans (perform_bind_ok hself)
  exact (step_of_ok watched (perform_bind_ok hmake)).1

/-- Reversing a bag fails exactly when its own reference is weak and leads to a view that is
gone. -/
theorem Sound.outcome_reversed (hs : s.Sound) (ha : s.registry.Attached)
    (hname : s.table.find? name = some (.bag v)) (watched : List String) (new : String) :
    ((∃ n f, v = .descending n .weak f ∧ s.registry.Gone f) →
      (s.step watched (.bind new (.view name .reversed))).1.outcome = .error .ownerDropped ∧
      (s.step watched (.bind new (.view name .reversed))).2.registry.contents =
        s.registry.contents) ∧
    ((¬ ∃ n f, v = .descending n .weak f ∧ s.registry.Gone f) →
      (s.step watched (.bind new (.view name .reversed))).1.outcome = .ok .done) := by
  have hlook := Table.perform_bag hname s.fresh
  rcases View.reversed_outcome hs.fresh (attached_fresh ha) (hs.live_fresh.find? hname) with
    ⟨hgone, hfail⟩ | ⟨hnot, w, reg', hdone⟩
  · have hmake : ((Making.view name .reversed).run s.table).perform s.fresh =
        (.error .ownerDropped, s.fresh) :=
      (perform_bind_ok hlook).trans (perform_bind_error hfail)
    obtain ⟨houtcome, hafter⟩ := step_of_error watched (c := .bind new (.view name .reversed))
      (perform_bind_error hmake)
    refine ⟨fun _ => ⟨houtcome, ?_⟩, fun hnot => absurd hgone hnot⟩
    rw [hafter]
    exact Registry.contents_release _ _
  · have hmake : ((Making.view name .reversed).run s.table).perform s.fresh =
        (.ok (.bag (reg'.enroll w).1), (reg'.enroll w).2) :=
      (perform_bind_ok hlook).trans (perform_bind_ok hdone)
    exact ⟨fun hgone => absurd hgone hnot, fun _ => (step_of_ok watched (perform_bind_ok hmake)).1⟩

/-- No descending view on the way down remembers its order exactly when none has answered for it. -/
theorem Reachable.oblivious_iff (hs : s.Reachable) (hv : s.registry.Houses v) :
    v.Oblivious s.registry ↔ ∀ w ∈ v.chain, w.isDescending = true → ¬ s.Answered w := by
  refine forall₂_congr fun w hw => forall_congr' fun hdesc => not_congr ?_
  have hhouses := View.houses_of_mem_chain hs.sound.registry.wellFormed hv hw
  exact (hs.answered_iff hhouses hdesc).symm

/-- A bag fails to tell its order exactly when it is broken and no descending view on the way down
has told its own order before. -/
theorem Reachable.outcome_comparatorOf (hs : s.Reachable) (ha : s.registry.Attached)
    (hname : s.table.find? name = some (.bag v)) (watched : List String) (new : String) :
    (v.Broken s.registry ∧ (∀ w ∈ v.chain, w.isDescending = true → ¬ s.Answered w) →
      (s.step watched (.bind new (.comparatorOf name))).1.outcome = .error .ownerDropped ∧
      (s.step watched (.bind new (.comparatorOf name))).2.registry.contents =
        s.registry.contents) ∧
    (¬ (v.Broken s.registry ∧ ∀ w ∈ v.chain, w.isDescending = true → ¬ s.Answered w) →
      (s.step watched (.bind new (.comparatorOf name))).1.outcome = .ok .done) := by
  have hsound := hs.sound
  have hv := (hsound.live.find? hname).1
  have hfresh := hv.moves s.moves_fresh
  have hlook := Table.perform_bag hname s.fresh
  have hiff := View.comparator_error_iff hsound.fresh.wellFormed hfresh
  rw [View.canReach_eq_false_iff hsound.fresh.wellFormed hfresh
    (attached_fresh ha _ (hfresh.root hsound.fresh.wellFormed))] at hiff
  have hobl : v.Oblivious s.fresh ↔ _ := hs.oblivious_iff hv
  rw [hobl] at hiff
  rcases View.comparator_spec hsound.fresh hfresh with hdone | ⟨-, hfail⟩
  · -- the view answers, so it is not the case that it fails
    have hmake : ((Making.comparatorOf name).run s.table).Gives s.fresh _ _ :=
      Gives.after hlook (hdone.map Handle.comparator)
    have houtcome := (step_of_gives watched (c := .bind new (.comparatorOf name))
      (hmake.map fun handle => (Answer.done, s.table.bind new handle))).1
    refine ⟨fun h => ?_, fun _ => houtcome⟩
    obtain ⟨reg', hp, -⟩ := hdone
    have herror := hiff.mpr h
    rw [hp] at herror
    cases herror
  · have hmake : ((Making.comparatorOf name).run s.table).Breaks s.fresh :=
      .after hlook (Breaks.bind hfail)
    have hstep := step_of_gives watched (c := .bind new (.comparatorOf name)) hmake.bind
    refine ⟨fun _ => ⟨hstep.1, hstep.2.2⟩, fun h => ?_⟩
    obtain ⟨reg', hp, -⟩ := hfail
    exact absurd (hiff.mp (by rw [hp])) h

/-- In every reachable session without sources that their own views cannot reach: consulting a view
fails for a view that is gone exactly when it is broken, and then no bag changes; a view that is not
descending is never broken; a broken view stays broken whatever happens; a bag always reaches
itself; reversing it fails exactly when its own reference is weak and leads to a view that is gone;
and it fails to tell its order exactly when it is broken and neither the bag nor a descending view
on the way down has told its order before. -/
theorem failures (hs : s.Reachable) (ha : s.registry.Attached) :
    (∀ v c, c.Consults s.table v → ∀ watched : List String,
      ((s.step watched c).1.outcome = .error .ownerDropped ↔ v.Broken s.registry) ∧
      (v.Broken s.registry → (s.step watched c).2.registry.contents = s.registry.contents)) ∧
    Failure.ownerDropped.message = "Cached views cannot be used after their multiset is dropped" ∧
    (∀ v : View α, v.isDescending = false → ¬ v.Broken s.registry) ∧
    (∀ v : View α, v.Broken s.registry → ∀ (watched : List String) (cs : List (Command α)),
      (∀ c ∈ cs, c.Valid) → v.Broken (run watched s cs).2.registry) ∧
    ∀ name (v : View α), s.table.find? name = some (.bag v) →
      ∀ (watched : List String) (new : String),
      (s.step watched (.bind new (.view name .itself))).1.outcome = .ok .done ∧
      (((∃ n f, v = .descending n .weak f ∧ s.registry.Gone f) →
          (s.step watched (.bind new (.view name .reversed))).1.outcome = .error .ownerDropped ∧
          (s.step watched (.bind new (.view name .reversed))).2.registry.contents =
            s.registry.contents) ∧
        ((¬ ∃ n f, v = .descending n .weak f ∧ s.registry.Gone f) →
          (s.step watched (.bind new (.view name .reversed))).1.outcome = .ok .done)) ∧
      ((v.Broken s.registry ∧ (∀ w ∈ v.chain, w.isDescending = true → ¬ s.Answered w) →
          (s.step watched (.bind new (.comparatorOf name))).1.outcome = .error .ownerDropped ∧
          (s.step watched (.bind new (.comparatorOf name))).2.registry.contents =
            s.registry.contents) ∧
        (¬ (v.Broken s.registry ∧ ∀ w ∈ v.chain, w.isDescending = true → ¬ s.Answered w) →
          (s.step watched (.bind new (.comparatorOf name))).1.outcome = .ok .done)) := by
  have hsound := hs.sound
  refine ⟨fun v c hc watched => hsound.consults_iff ha hc watched, rfl,
    fun v hup => View.not_broken_of_up hup, ?_, ?_⟩
  · exact fun v h watched cs hcs => h.bury (hsound.buries_run hcs watched)
  · intro name v hname watched new
    exact ⟨hsound.outcome_itself ha hname watched new, hsound.outcome_reversed ha hname watched new,
      hs.outcome_comparatorOf ha hname watched new⟩

/-- The descending view of three numbers that are gone, which was asked for its order before. -/
def threeLost : Session Int :=
  (run [] threeReversed [.bind "c" (.comparatorOf "d"), .drop "s"]).2

theorem threeLost_reachable : threeLost.Reachable := by
  refine threeReversed_reachable.run (fun c hc => ?_) []
  rcases hc with _ | ⟨_, _ | ⟨_, ⟨⟩⟩⟩ <;> trivial

theorem threeLost_attached : threeLost.registry.Attached := by
  have hroots : (threeLost.registry.nodes.toList.all fun n => n.view.root.access != .detached) =
    true := rfl
  rintro b ⟨n, hn⟩
  obtain ⟨i, -, hnode⟩ := hn.index
  have hmem : n ∈ threeLost.registry.nodes.toList :=
    List.mem_iff_getElem?.mpr ⟨i, by rw [Array.getElem?_toList, hnode]⟩
  have hroot := List.all_eq_true.mp hroots n hmem
  rw [hn.view] at hroot
  simpa [View.root] using hroot

theorem failures_threeLost :
    (threeLost.step [] (.askBag "d" .size)).1.outcome = .error .ownerDropped ∧
    (threeLost.step [] (.bind "r" (.view "d" .reversed))).1.outcome = .error .ownerDropped ∧
    (threeLost.step [] (.bind "c" (.comparatorOf "d"))).1.outcome = .ok .done := by
  let b : Source Int := ⟨0, 0, ⟨0, .natural, false⟩, .indexed⟩
  let d : View Int := .descending (some 1) .weak (.source b)
  obtain ⟨hconsults, -, -, -, hbag⟩ := failures threeLost_reachable threeLost_attached
  have hd : threeLost.table.find? "d" = some (.bag d) := rfl
  have hgone : threeLost.registry.Gone (.source b) := ⟨0, rfl, _, rfl, rfl⟩
  have hbroken : d.Broken threeLost.registry := ⟨_, _, List.mem_cons_self, hgone⟩
  refine ⟨?_, ?_, ?_⟩
  · exact (hconsults d (.askBag "d" .size) ⟨hd, trivial⟩ []).1.mpr hbroken
  · exact ((hbag "d" d hd [] "r").2.1.1 ⟨_, _, rfl, hgone⟩).1
  · -- it told its order when that could still be known
    refine (hbag "d" d hd [] "c").2.2.2 fun hnot => hnot.2 d List.mem_cons_self rfl ?_
    have hhouses := (threeLost_reachable.sound.live.find? hd).1
    refine (threeLost_reachable.answered_iff hhouses rfl).mpr ⟨1, rfl, ?_⟩
    exact Option.ne_none_iff_exists'.mpr ⟨_, rfl⟩

end Session

end OrderedBag
