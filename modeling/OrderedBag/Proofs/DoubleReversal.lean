import OrderedBag.Proofs.NestedViews

/-!
# Reversing a view twice

A view builds its descending view once, registers it, and the descending view gives back the view
behind it. So reversing twice leads back to the very same view, with one exception: a descending
view that was made around a view of its own, as narrowing a descending view and the descending set
make one, is not what the view behind it has registered. Reversed twice it leads to another view.

* `View.reverses_twice` — when reversing twice leads back
* `Session.same_reversed_twice` — what a session answers when it compares the two
-/

namespace OrderedBag

open OrderedBag.Action

variable {α : Type}

namespace View

/-- Whether a view is a descending view that the view behind it has not registered. Such a view
keeps the view behind it alive. -/
def isUnregistered : View α → Bool
  | descending _ .strong _ => true
  | source _ | range _ _ _ | descending _ .weak _ => false

theorem isUnregistered_of_up {v : View α} (h : v.isDescending = false) :
    v.isUnregistered = false := by
  cases v with
  | source s => rfl
  | range n s r => rfl
  | descending n link f => simp [isDescending] at h

/-- No view is behind itself. -/
theorem ne_descending_twice (n m : Option NodeId) (l k : Link) (v : View α) :
    v ≠ descending n l (descending m k v) := by
  intro h
  have hsize := congrArg sizeOf h
  simp only [descending.sizeOf_spec] at hsize
  omega

variable {reg : Registry α} {v w u : View α}

/-- There is only one registered descending view of a view. -/
theorem weak_unique (hw : reg.WellFormed) {i j : Option NodeId}
    (hi : reg.Houses (descending i .weak v)) (hj : reg.Houses (descending j .weak v)) :
    descending i .weak v = descending j .weak v := by
  obtain ⟨k, hk, hslot⟩ := hi.registered hw
  obtain ⟨k', hk', hslot'⟩ := hj.registered hw
  obtain rfl : k = k' := hk.unique hk'
  exact Option.some.inj (hslot.symm.trans hslot')

/-- Reversing twice leads back to every view that is not an unregistered descending view, and never
to such a one. -/
theorem reverses_twice (hw : reg.WellFormed) (hv : reg.Houses v) (hhouses : reg.Houses w)
    (hvu : v.Reverses u) (huw : u.Reverses w) : w = v ↔ v.isUnregistered = false := by
  rcases hvu with ⟨n, link, rfl⟩ | ⟨hup, j, rfl⟩
  · cases link with
    | weak =>
      -- the view behind is not descending, and both are what it has registered
      have hup := Registry.isDescending_of_weak hw hv
      rcases huw with ⟨m, link, rfl⟩ | ⟨-, j, rfl⟩
      · simp [isDescending] at hup
      · exact ⟨fun _ => rfl, fun _ => weak_unique hw hhouses hv⟩
    | strong =>
      -- the view behind has another one registered, or is descending and gives back a third one
      refine ⟨fun h => ?_, fun h => by simp [isUnregistered] at h⟩
      rcases huw with ⟨m, link, rfl⟩ | ⟨-, j, rfl⟩
      · exact absurd h (ne_descending_twice _ _ _ _ _)
      · simp at h
  · rcases huw with ⟨m, link, h⟩ | ⟨hdown, -⟩
    · obtain rfl : v = w := (descending.inj h).2.2
      exact ⟨fun _ => isUnregistered_of_up hup, fun _ => rfl⟩
    · simp [isDescending] at hdown

/-- Both what a view has registered and the view behind it have a node. -/
theorem enroll_of_reverses (hw : reg.WellFormed) (hv : reg.Houses v) (hu : reg.Supports u)
    (h : v.Reverses u) : reg.enroll u = (u, reg) := by
  rcases h with ⟨n, link, rfl⟩ | ⟨-, j, rfl⟩
  · exact Registry.enroll_of_houses (hv.base hw rfl)
  · cases j with
    | none => exact hu.elim
    | some i => rfl

end View

/-- Two names of bags are compared by the nodes of the bags. -/
theorem Table.perform_same {t : Table α} {reg : Registry α} {first second : String} {v w : View α}
    (hfirst : t.find? first = some (.bag v)) (hsecond : t.find? second = some (.bag w)) :
    (t.same first second).perform reg = (.ok (v.node? == w.node?), reg) := by
  unfold same
  rw [hfirst]
  exact (perform_bind_ok (perform_bag hfirst reg)).trans (perform_bind_ok (perform_bag hsecond reg))

namespace Session

variable [Ord α] [Std.TransOrd α] [Shown α] {s : Session α} {watched : List String} {v : View α}

/-- Reversing gives a name to the reversed view, as it is. -/
theorem reversed_of_outcome (hs : s.Sound) {name new : String} {answer : Answer α}
    (hname : s.table.find? name = some (.bag v))
    (h : (s.step watched (.bind new (.view name .reversed))).1.outcome = .ok answer) :
    ∃ w, v.Reverses w ∧
      (s.step watched (.bind new (.view name .reversed))).2.table = s.table.bind new (.bag w) := by
  obtain ⟨w, reg, hm, hsup, hmakes, -, htable⟩ := view_of_outcome hs hname h
  have henroll := View.enroll_of_reverses (hs.registry.moves hm).wellFormed
    (Registry.Houses.moves (hs.live.find? hname).1 hm) hsup hmakes
  exact ⟨w, hmakes, by rw [htable, henroll]⟩

/-- Two names of bags are the same exactly when they stand for the same view. -/
theorem same_outcome (watched : List String) {first second : String} {w : View α} (hs : s.Sound)
    (hfirst : s.table.find? first = some (.bag v))
    (hsecond : s.table.find? second = some (.bag w)) :
    ∃ b, (s.step watched (.same first second)).1.outcome = .ok (.flag b) ∧ (b = true ↔ v = w) := by
  have hrun : ((Command.same first second).run s.table).perform s.fresh =
      (.ok (.flag (v.node? == w.node?), s.table), s.fresh) :=
    perform_bind_ok (Table.perform_same hfirst hsecond)
  refine ⟨_, (step_of_ok watched hrun).1, ?_⟩
  rw [beq_iff_eq]
  exact ⟨Registry.houses_unique (hs.live.find? hfirst).1 (hs.live.find? hsecond).1,
    congrArg View.node?⟩

/-- Whenever a view can be reversed twice, the result is the view itself if and only if the view is
not an unregistered descending view. -/
theorem same_reversed_twice (hs : s.Reachable) {name first second : String}
    {outcome : Except Failure (Answer α)} (hname : s.table.find? name = some (.bag v))
    (hfirst : first ≠ name) (hsecond : second ≠ name)
    (h : (run watched s [.bind first (.view name .reversed), .bind second (.view first .reversed),
      .same second name]).1.map Report.outcome = [.ok .done, .ok .done, outcome]) :
    outcome = .ok (.flag (!v.isUnregistered)) := by
  obtain ⟨s', hs'⟩ : ∃ s', (s.step watched (.bind first (.view name .reversed))).2 = s' := ⟨_, rfl⟩
  obtain ⟨s'', hs''⟩ : ∃ s'', (s'.step watched (.bind second (.view first .reversed))).2 = s'' :=
    ⟨_, rfl⟩
  simp only [run, hs', hs'', List.map_cons, List.map_nil, List.cons.injEq, and_true] at h
  obtain ⟨hdone, hdone', rfl⟩ := h
  have hsound := hs.sound
  have hsound' : s'.Sound := hs' ▸ hsound.step (c := .bind first (.view name .reversed)) trivial _
  have hsound'' : s''.Sound :=
    hs'' ▸ hsound'.step (c := .bind second (.view first .reversed)) trivial _
  -- each of the two names comes to stand for what reversing answers
  obtain ⟨u, hvu, htable⟩ := reversed_of_outcome hsound hname hdone
  rw [hs'] at htable
  have hu : s'.table.find? first = some (.bag u) := by rw [htable, Table.find?_bind_self]
  have hv : s'.table.find? name = some (.bag v) := by
    rw [htable, Table.find?_bind_of_ne _ hfirst.symm, hname]
  obtain ⟨w, huw, htable'⟩ := reversed_of_outcome hsound' hu hdone'
  rw [hs''] at htable'
  have hw : s''.table.find? second = some (.bag w) := by rw [htable', Table.find?_bind_self]
  have hv' : s''.table.find? name = some (.bag v) := by
    rw [htable', Table.find?_bind_of_ne _ hsecond.symm, hv]
  have hback := View.reverses_twice hsound''.registry.wellFormed (hsound''.live.find? hv').1
    (hsound''.live.find? hw).1 hvu huw
  obtain ⟨b, hb, hiff⟩ := same_outcome watched hsound'' hw hv'
  have hflag : b = !v.isUnregistered := by
    rw [Bool.eq_iff_iff, hiff, hback, Bool.not_eq_true']
  rw [hb, hflag]

theorem same_reversed_twice_threeReversed :
    ∃ v, threeReversed.table.find? "d" = some (.bag v) ∧
      (run [] threeReversed [.bind "r" (.view "d" .reversed), .bind "t" (.view "r" .reversed),
        .same "t" "d"]).1.map Report.outcome =
          [.ok .done, .ok .done, .ok (.flag (!v.isUnregistered))] := by
  have hrun : (run [] threeReversed [.bind "r" (.view "d" .reversed),
      .bind "t" (.view "r" .reversed), .same "t" "d"]).1.map Report.outcome =
        [.ok .done, .ok .done, .ok (.flag true)] := rfl
  have hflag := same_reversed_twice threeReversed_reachable rfl (by decide) (by decide) hrun
  refine ⟨_, rfl, hrun.trans ?_⟩
  rw [hflag]

/-- Reversing the head of a descending view twice leads to another view. -/
theorem not_same_reversed_twice_threeHead :
    threeHead.Reachable ∧ (∃ v, threeHead.table.find? "v" = some (.bag v)) ∧
      (run [] threeHead [.bind "r" (.view "v" .reversed), .bind "t" (.view "r" .reversed),
        .same "t" "v"]).1.map Report.outcome = [.ok .done, .ok .done, .ok (.flag false)] :=
  ⟨threeHead_reachable, ⟨_, rfl⟩, rfl⟩

end Session

end OrderedBag
