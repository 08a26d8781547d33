import OrderedBag.Proofs.BrokenViews
import OrderedBag.Proofs.Twins

/-!
# What twins do

An action on a registry and an action on its twin match if they lead to twins again, and either both
fail, for the same reason, or both answer, and the answers belong together. Whatever is made of two
views that differ only in how their sources answer matches, and shows nothing outside of the scope
if the views do not.

* `Action.Matches` — two actions that do the same to twins, with a rule for running one action after
  another
* `View.Paired` — two views that differ only in how their sources answer
* `View.comparator_matches`, `ViewStep.run_matches`, `ElementStep.run_matches` — making views and
  sets
-/

namespace OrderedBag

open OrderedBag.Action

variable {α β γ δ ε : Type}

/-! ## Matching actions -/

/-- Both fail, for the same reason, or both answer, and the answers belong together. -/
inductive SameOutcome (P : β → γ → Prop) : Except Failure β → Except Failure γ → Prop
  | ok {b : β} {c : γ} (h : P b c) : SameOutcome P (.ok b) (.ok c)
  | error (e : Failure) : SameOutcome P (.error e) (.error e)

/-- On a registry and its twin, the actions lead to twins and to the same outcome. -/
structure Action.Matches (a : Action α β) (S : Scope α) (P : β → γ → Prop) (a' : Action α γ)
    (reg reg' : Registry α) : Prop where
  registry : (a.perform reg).2.Twins S (a'.perform reg').2
  outcome : SameOutcome P (a.perform reg).1 (a'.perform reg').1

variable {S : Scope α} {reg reg' : Registry α}

namespace SameOutcome

variable {P : β → γ → Prop} {x : Except Failure β} {y : Except Failure γ}

theorem refl (x : Except Failure β) : SameOutcome Eq x x := by
  cases x with
  | error e => exact .error e
  | ok b => exact .ok rfl

theorem eq {x y : Except Failure β} (h : SameOutcome Eq x y) : y = x := by
  cases h with
  | ok h => rw [h]
  | error e => rfl

theorem mono {Q : β → γ → Prop} (h : SameOutcome P x y) (hpq : ∀ b c, P b c → Q b c) :
    SameOutcome Q x y := by
  cases h with
  | ok h => exact .ok (hpq _ _ h)
  | error e => exact .error e

end SameOutcome

namespace Action

variable {P : β → γ → Prop} {Q : δ → ε → Prop} {a : Action α β} {a' : Action α γ}
  {f : β → Action α δ} {f' : γ → Action α ε}

theorem matches_pure (hr : reg.Twins S reg') {b : β} {c : γ} (h : P b c) :
    (pure b : Action α β).Matches S P (pure c : Action α γ) reg reg' :=
  ⟨hr, .ok h⟩

theorem matches_reading (hr : reg.Twins S reg') {g : Registry α → Except Failure β}
    {g' : Registry α → Except Failure γ} (h : SameOutcome P (g reg) (g' reg')) :
    (reading g).Matches S P (reading g') reg reg' := by
  refine ⟨?_, ?_⟩
  · rw [perform_reading, perform_reading]
    exact hr
  · rw [perform_reading, perform_reading]
    exact h

theorem matches_updating {g : Registry α → β × Registry α} {g' : Registry α → γ × Registry α}
    (hr : (g reg).2.Twins S (g' reg').2) (h : P (g reg).1 (g' reg').1) :
    (updating g).Matches S P (updating g') reg reg' :=
  ⟨hr, .ok h⟩

theorem matches_modify {g g' : Registry α → Registry α} (hr : (g reg).Twins S (g' reg')) :
    (modify g : Action α Unit).Matches S Eq (modify g') reg reg' :=
  ⟨hr, .ok rfl⟩

theorem matches_record (hr : reg.Twins S reg') (r : Record) :
    (record r : Action α Unit).Matches S Eq (record r) reg reg' :=
  ⟨hr.withLog _ _, .ok rfl⟩

theorem matches_evaluate (hr : reg.Twins S reg') (o : Order α) :
    (updating fun reg => reg.evaluate o).Matches S Eq (updating fun reg => reg.evaluate o)
      reg reg' :=
  ⟨(hr.evaluate o).2, .ok (hr.evaluate o).1.symm⟩

theorem matches_addSource (hr : reg.Twins S reg') (c : Comparator α) {a a' : Access}
    (ha : S.alike a a') :
    (updating fun reg => reg.addSource c a).Matches S
      (fun s s' => s'.core = s.core ∧ s.bag = reg.bags.size ∧ s.access = a)
      (updating fun reg => reg.addSource c a') reg reg' :=
  ⟨(hr.addSource c ha).2, .ok ⟨(hr.addSource c ha).1, rfl, rfl⟩⟩

theorem matches_follow (hr : reg.Twins S reg') (link : Link) {v w : View α}
    (h : w.core = v.core) : (follow link v).Matches S Eq (follow link w) reg reg' := by
  refine matches_reading hr ?_
  rw [hr.follow link h]
  exact .refl _

/-- Actions that write to the log only. -/
theorem matches_of_answers (hr : reg.Twins S reg') {o : Except Failure β} {o' : Except Failure γ}
    (ha : a.Answers reg o) (ha' : a'.Answers reg' o') (h : SameOutcome P o o') :
    a.Matches S P a' reg reg' := by
  obtain ⟨l, hl⟩ := ha
  obtain ⟨l', hl'⟩ := ha'
  refine ⟨?_, ?_⟩
  · rw [hl, hl']
    exact hr.withLog l l'
  · rw [hl, hl']
    exact h

/-- Actions of which it is known what they do. -/
theorem matches_of_perform {o : Except Failure β} {o' : Except Failure γ} {reg₁ reg₁' : Registry α}
    (hp : a.perform reg = (o, reg₁)) (hp' : a'.perform reg' = (o', reg₁'))
    (hr : reg₁.Twins S reg₁') (h : SameOutcome P o o') : a.Matches S P a' reg reg' := by
  refine ⟨?_, ?_⟩
  · rw [hp, hp']
    exact hr
  · rw [hp, hp']
    exact h

theorem Matches.mono (ha : a.Matches S P a' reg reg') {Q : β → γ → Prop}
    (h : ∀ b c, P b c → Q b c) : a.Matches S Q a' reg reg' :=
  ⟨ha.registry, ha.outcome.mono h⟩

/-- One action after another, when it matters in which registries the second ones start. -/
theorem Matches.bind_run (ha : a.Matches S P a' reg reg')
    (hf : ∀ b c reg₁ reg₁', a.perform reg = (.ok b, reg₁) → a'.perform reg' = (.ok c, reg₁') →
      P b c → reg₁.Twins S reg₁' → (f b).Matches S Q (f' c) reg₁ reg₁') :
    (a >>= f).Matches S Q (a' >>= f') reg reg' := by
  obtain ⟨hr, hout⟩ := ha
  cases hp : a.perform reg with
  | mk o reg₁ =>
    cases hp' : a'.perform reg' with
    | mk o' reg₁' =>
      rw [hp, hp'] at hr hout
      cases hout with
      | error e =>
        refine ⟨?_, ?_⟩
        · rw [perform_bind_error hp, perform_bind_error hp']
          exact hr
        · rw [perform_bind_error hp, perform_bind_error hp']
          exact .error e
      | ok h =>
        obtain ⟨hr', hout'⟩ := hf _ _ reg₁ reg₁' hp hp' h hr
        refine ⟨?_, ?_⟩
        · rw [perform_bind_ok hp, perform_bind_ok hp']
          exact hr'
        · rw [perform_bind_ok hp, perform_bind_ok hp']
          exact hout'

/-- One action after another. -/
theorem Matches.bind (ha : a.Matches S P a' reg reg')
    (hf : ∀ b c reg₁ reg₁', P b c → reg₁.Twins S reg₁' → (f b).Matches S Q (f' c) reg₁ reg₁') :
    (a >>= f).Matches S Q (a' >>= f') reg reg' :=
  ha.bind_run fun b c reg₁ reg₁' _ _ => hf b c reg₁ reg₁'

/-- What follows parts that only read. -/
theorem Matches.after {b : β} {c : γ} (ha : a.perform reg = (.ok b, reg))
    (ha' : a'.perform reg' = (.ok c, reg')) (hf : (f b).Matches S Q (f' c) reg reg') :
    (a >>= f).Matches S Q (a' >>= f') reg reg' := by
  refine ⟨?_, ?_⟩
  · rw [perform_bind_ok ha, perform_bind_ok ha']
    exact hf.registry
  · rw [perform_bind_ok ha, perform_bind_ok ha']
    exact hf.outcome

/-- What follows a question that changes nothing. -/
theorem Matches.reading {g : Registry α → Except Failure β} {g' : Registry α → Except Failure γ}
    (hr : reg.Twins S reg') (h : SameOutcome P (g reg) (g' reg'))
    (hf : ∀ b c, P b c → (f b).Matches S Q (f' c) reg reg') :
    (Action.reading g >>= f).Matches S Q (Action.reading g' >>= f') reg reg' := by
  refine (matches_reading hr h).bind_run fun b c reg₁ reg₁' hp hp' hbc _ => ?_
  rw [perform_reading] at hp hp'
  obtain ⟨-, rfl⟩ := Prod.mk.inj hp
  obtain ⟨-, rfl⟩ := Prod.mk.inj hp'
  exact hf b c hbc

/-- Actions that only go on from the answers of matching ones. -/
theorem Matches.map (ha : a.Matches S P a' reg reg') {g : β → δ} {g' : γ → ε}
    (h : ∀ b c, P b c → Q (g b) (g' c)) :
    (a >>= fun b => pure (g b)).Matches S Q (a' >>= fun c => pure (g' c)) reg reg' :=
  ha.bind fun b c _ _ hbc hr => matches_pure hr (h b c hbc)

end Action

/-! ## Views of the same shape -/

namespace View

variable {v w f : View α} {s : Source α} {n : Option NodeId} {link : Link} {r : Interval α}

theorem source_of_core (h : w.core = (source s).core) : ∃ s', w = source s' ∧ s'.core = s.core := by
  cases w with
  | source s' => exact ⟨s', rfl, View.source.inj h⟩
  | range n s' r => cases h
  | descending n link f => cases h

theorem range_of_core (h : w.core = (range n s r).core) :
    ∃ s', w = range n s' r ∧ s'.core = s.core := by
  cases w with
  | source s' => cases h
  | range n' s' r' =>
    obtain ⟨rfl, hs, rfl⟩ := View.range.inj h
    exact ⟨s', rfl, hs⟩
  | descending n link f => cases h

theorem descending_of_core (h : w.core = (descending n link f).core) :
    ∃ g, w = descending n link g ∧ g.core = f.core := by
  cases w with
  | source s' => cases h
  | range n' s' r' => cases h
  | descending n' link' g =>
    obtain ⟨rfl, rfl, hg⟩ := View.descending.inj h
    exact ⟨g, rfl, hg⟩

theorem isDescending_of_core (h : w.core = v.core) : w.isDescending = v.isDescending := by
  rw [← isDescending_core, h, isDescending_core]

theorem attached_of_core (h : w.core = v.core) : w.attached = v.attached := by
  induction v generalizing w with
  | source s =>
    obtain ⟨s', rfl, hs⟩ := source_of_core h
    have haccess : s'.access = .detached ↔ s.access = .detached := by
      rw [← access_core_eq_detached, hs, access_core_eq_detached]
    unfold attached
    simp only [haccess]
  | range n s r =>
    obtain ⟨s', rfl, -⟩ := range_of_core h
    rfl
  | descending n link f ih =>
    obtain ⟨g, rfl, hg⟩ := descending_of_core h
    exact ih (w := g) hg

theorem narrowed_of_core (h : w.core = v.core) (q : Interval α) :
    (w.narrowed q).core = (v.narrowed q).core := by
  rw [core_narrowed, h, core_narrowed]

end View

/-- Two existing views of the same shape, each in a registry of its own, that show nothing outside
of the scope. -/
structure View.Paired (S : Scope α) (reg reg' : Registry α) (v w : View α) : Prop where
  core : w.core = v.core
  shared : v.Shared S
  live : reg.Live v
  live' : reg'.Live w

namespace View.Paired

variable {v w : View α}

theorem moves (h : Paired S reg reg' v w) {reg₁ reg₁' : Registry α} (hm : reg.Moves reg₁)
    (hm' : reg'.Moves reg₁') : Paired S reg₁ reg₁' v w :=
  ⟨h.core, h.shared, h.live.moves hm, h.live'.moves hm'⟩

theorem attached' (h : Paired S reg reg' v w) : w.root.access ≠ .detached :=
  (h.shared.of_core h.core).attached

/-- Both can be asked everything, or both are broken. -/
theorem intact_or_broken (h : Paired S reg reg' v w) (hr : reg.Twins S reg') (hs : reg.Sound)
    (hs' : reg'.Sound) : v.Intact reg ∧ w.Intact reg' ∨ v.Broken reg ∧ w.Broken reg' := by
  have hsame := hr.canReach h.core
  cases hreach : reg.canReach v with
  | true =>
    rw [hreach] at hsame
    exact .inl ⟨⟨h.live.1, hreach, h.shared.attached⟩, ⟨h.live'.1, hsame, h.attached'⟩⟩
  | false =>
    rw [hreach] at hsame
    refine .inr ⟨?_, ?_⟩
    · exact (canReach_eq_false_iff hs.wellFormed h.live.1 h.shared.attached).mp hreach
    · exact (canReach_eq_false_iff hs'.wellFormed h.live'.1 h.attached').mp hsame

end View.Paired

/-! ## Making views -/

namespace View

variable {v w : View α}

theorem enroll_matches (hr : reg.Twins S reg') (h : w.core = v.core) :
    (Action.updating fun reg => reg.enroll v).Matches S (fun v' w' => w'.core = v'.core)
      (Action.updating fun reg => reg.enroll w) reg reg' :=
  matches_updating (hr.enroll h).2 (hr.enroll h).1

/-- A view that remembers its comparator does so in both registries. -/
theorem comparator_matches (hr : reg.Twins S reg') (h : w.core = v.core) :
    v.comparator.Matches S Eq w.comparator reg reg' := by
  induction v generalizing w reg reg' with
  | source s =>
    obtain ⟨s', rfl, -⟩ := source_of_core h
    exact matches_pure hr (comparator_of_core h).symm
  | range n s r =>
    obtain ⟨s', rfl, -⟩ := range_of_core h
    exact matches_pure hr (comparator_of_core h).symm
  | descending n link f ih =>
    obtain ⟨g, rfl, hg⟩ := descending_of_core h
    have hmemo : (reg'.nodeOf? (descending n link g)).bind Node.comparator =
        (reg.nodeOf? (descending n link f)).bind Node.comparator := by
      have hnode := congrArg (Option.bind · Node.comparator) (hr.nodeOf? h)
      simp only [Option.bind_map] at hnode
      exact hnode
    rw [comparator_descending, comparator_descending]
    refine .after (perform_get reg) (perform_get reg') ?_
    rw [hmemo]
    cases (reg.nodeOf? (descending n link f)).bind Node.comparator with
    | some c => exact matches_pure hr rfl
    | none =>
      refine (matches_follow hr link hg).bind fun _ _ _ _ _ hr => ?_
      refine (ih hr hg).bind fun c c' _ _ hc hr => ?_
      subst hc
      have hremember := hr.updateNode h (fun m => { m with comparator := some c.reversed })
        (fun m => { m with comparator := some c.reversed })
        (g := fun m => { m with comparator := some c.reversed }) (fun _ => rfl) (fun _ => rfl)
        (fun _ => rfl) (fun _ => rfl)
      exact (matches_modify hremember).bind fun _ _ _ _ _ hr => matches_pure hr rfl

/-- What is narrowed is shared if the view is. -/
theorem narrow_matches (hr : reg.Twins S reg') (h : w.core = v.core) (hv : v.Shared S)
    (q : Interval α) :
    (v.narrow q).Matches S (fun v' w' => w'.core = v'.core ∧ v'.Shared S) (w.narrow q)
      reg reg' := by
  refine matches_of_answers hr (narrow_answers v q reg) (narrow_answers w q reg') ?_
  rw [Registry.reach, Registry.reach, hr.canReach h, attached_of_core h]
  split
  · rw [attached_eq_ok hv.attached]
    exact .ok ⟨narrowed_of_core h q, hv.narrowed q⟩
  · exact .error _

theorem sub_matches (hr : reg.Twins S reg') (h : w.core = v.core) (hv : v.Shared S)
    (lo hi : Endpoint α) :
    (v.sub lo hi).Matches S (fun v' w' => w'.core = v'.core ∧ v'.Shared S) (w.sub lo hi)
      reg reg' := by
  refine matches_of_answers hr (sub_answers v lo hi reg) (sub_answers w lo hi reg') ?_
  rw [Registry.reach, Registry.reach, hr.canReach h, attached_of_core h, order_of_core h]
  split
  · rw [attached_eq_ok hv.attached]
    cases Interval.between? v.order lo hi with
    | none => exact .error _
    | some q => exact .ok ⟨narrowed_of_core h q, hv.narrowed q⟩
  · exact .error _

theorem buildReversal_matches (hr : reg.Twins S reg') (h : w.core = v.core) (hv : v.Shared S) :
    v.buildReversal.Matches S (fun v' w' => w'.core = v'.core ∧ v'.Shared S) w.buildReversal
      reg reg' := by
  have hturned : (descending none .weak w).core = (descending none .weak v).core :=
    congrArg (descending none .weak) h
  refine (matches_record hr _).bind fun _ _ _ _ _ hr => ?_
  refine (enroll_matches hr hturned).bind_run fun d d' reg₁ reg₁' hd _ hcore hr => ?_
  have hshared : d.Shared S := by
    obtain ⟨hd, -⟩ := Prod.mk.inj hd
    rw [← Except.ok.inj hd]
    exact (hv.turned none .weak).enroll _
  have hremember := hr.updateNode h (fun n => { n with reversal := some d })
    (fun n => { n with reversal := some d' }) (g := fun n => { n with reversal := some d.core })
    (fun _ => rfl) (fun n => by rw [← hcore]; rfl) (fun _ => rfl) (fun _ => rfl)
  exact (matches_modify hremember).bind fun _ _ _ _ _ hr => matches_pure hr ⟨hcore, hshared⟩

/-- A descending view is built in both registries, or in both it is there already. -/
theorem reversed_matches (hr : reg.Twins S reg') (hs : reg.Sound)
    (h : Paired S reg reg' v w) :
    v.reversed.Matches S (fun v' w' => w'.core = v'.core ∧ v'.Shared S) w.reversed
      reg reg' := by
  cases hup : v.isDescending with
  | true =>
    cases v with
    | source s => cases hup
    | range n s r => cases hup
    | descending n link f =>
      obtain ⟨g, rfl, hg⟩ := descending_of_core h.core
      exact (matches_follow hr link hg).bind fun _ _ _ _ _ hr =>
        matches_pure hr ⟨hg, h.shared.forward⟩
  | false =>
    rw [reversed_of_up hup, reversed_of_up ((isDescending_of_core h.core).trans hup)]
    refine .after (perform_enroll h.live.1) (perform_enroll h.live'.1) ?_
    refine .after (perform_get reg) (perform_get reg') ?_
    obtain ⟨n, hn⟩ := h.live.1
    obtain ⟨n', hn'⟩ := h.live'.1
    have hnode := hr.nodeOf? h.core
    rw [hn.found, hn'.found, Option.map_some, Option.map_some, Option.some.injEq] at hnode
    have hslot : n'.reversal.map core = n.reversal.map core := congrArg Node.reversal hnode
    rw [hn.found, hn'.found, Option.bind_some, Option.bind_some]
    cases hbuilt : n.reversal with
    | none =>
      rw [hbuilt, Option.map_none, Option.map_eq_none_iff] at hslot
      rw [hslot]
      exact buildReversal_matches hr h.core h.shared
    | some d =>
      rw [hbuilt, Option.map_some, Option.map_eq_some_iff] at hslot
      obtain ⟨d', hbuilt', hcore⟩ := hslot
      obtain ⟨-, -, j, rfl⟩ := hn.reversal_eq hs.wellFormed hbuilt
      rw [hbuilt']
      exact matches_pure hr ⟨hcore, h.shared.turned j .weak⟩

theorem reachItself_matches (hr : reg.Twins S reg') (h : w.core = v.core) (hv : v.Shared S) :
    v.reachItself.Matches S (fun v' w' => w'.core = v'.core ∧ v'.Shared S) w.reachItself
      reg reg' := by
  have hw := hv.of_core h
  cases v with
  | source s =>
    obtain ⟨s', rfl, hs⟩ := source_of_core h
    show s.reachItself.Matches S _ s'.reachItself reg reg'
    have hattached : s.access ≠ .detached := hv.attached
    have hattached' : s'.access ≠ .detached := hw.attached
    unfold Source.reachItself
    rw [if_neg hattached, if_neg hattached']
    exact matches_pure hr ⟨h, hv⟩
  | range n s r =>
    obtain ⟨s', rfl, -⟩ := range_of_core h
    exact matches_pure hr ⟨h, hv⟩
  | descending n link f =>
    obtain ⟨g, rfl, -⟩ := descending_of_core h
    exact matches_pure hr ⟨h, hv⟩

end View

theorem ViewStep.run_matches (hr : reg.Twins S reg') (hs : reg.Sound) {v w : View α}
    (h : View.Paired S reg reg' v w) (st : ViewStep α) :
    (st.run v).Matches S (fun v' w' => w'.core = v'.core ∧ v'.Shared S) (st.run w) reg reg' := by
  cases st with
  | head hi => exact View.narrow_matches hr h.core h.shared _
  | tail lo => exact View.narrow_matches hr h.core h.shared _
  | sub lo hi => exact View.sub_matches hr h.core h.shared lo hi
  | reversed => exact View.reversed_matches hr hs h
  | itself => exact View.reachItself_matches hr h.core h.shared

/-! ## Sets -/

/-- The set, without the way in which its source answers. -/
def ElementSet.core (u : ElementSet α) : ElementSet α :=
  { u with view := u.view.core }

/-- The set, without the way in which its source answers. -/
def EntrySet.core (u : EntrySet α) : EntrySet α :=
  ⟨u.view.core⟩

namespace ElementSet

variable {u u' : ElementSet α}

theorem link_of_core (h : u'.core = u.core) : u'.link = u.link := by
  have hlink : u'.core.link = u.core.link := congrArg ElementSet.link h
  exact hlink

/-- What follows the references of two sets to their views. -/
theorem bag_matches (hr : reg.Twins S reg') (h : u'.core = u.core) {P : β → γ → Prop}
    {f : View α → Action α β} {f' : View α → Action α γ}
    (hf : (f u.view).Matches S P (f' u'.view) reg reg') :
    (u.bag >>= f).Matches S P (u'.bag >>= f') reg reg' := by
  have hlink := link_of_core h
  have hsame := hr.follow u.link (congrArg ElementSet.view h)
  rw [← hlink] at hsame
  cases hfollow : reg.follow u.link u.view with
  | ok _ =>
    rw [hlink, hfollow, ← hlink] at hsame
    exact .after (perform_bag hfollow) (perform_bag hsame) hf
  | error e =>
    have hfail {u : ElementSet α} {reg : Registry α}
        (hfollow : reg.follow u.link u.view = .error e) : u.bag.Answers reg (.error e) :=
      (reading_answers hfollow).bind_error
    rw [hlink, hfollow, ← hlink] at hsame
    have hbag : u.bag.Matches S (fun _ _ => False) u'.bag reg reg' :=
      matches_of_answers hr (hfail hfollow) (hfail hsame) (.error e)
    exact hbag.bind fun _ _ _ _ h => h.elim

theorem keeping_matches (hr : reg.Twins S reg') {v w : View α} (h : w.core = v.core)
    (hv : v.Shared S) :
    (keeping v).Matches S (fun u u' => u'.core = u.core ∧ u.view.Shared S) (keeping w)
      reg reg' :=
  (matches_record hr _).map fun _ _ _ => ⟨congrArg (mk .strong) h, hv⟩

theorem comparator_matches (hr : reg.Twins S reg') (h : u'.core = u.core) :
    u.comparator.Matches S Eq u'.comparator reg reg' :=
  bag_matches hr h (View.comparator_matches hr (congrArg ElementSet.view h))

theorem descending_matches (hr : reg.Twins S reg') (h : u'.core = u.core)
    (hv : u.view.Shared S) :
    u.descending.Matches S (fun u u' => u'.core = u.core ∧ u.view.Shared S) u'.descending
      reg reg' := by
  refine bag_matches hr h ((matches_record hr _).bind fun _ _ _ _ _ hr => ?_)
  have hview : u'.view.core = u.view.core := congrArg ElementSet.view h
  exact keeping_matches hr (congrArg (View.descending none .strong) hview) (hv.turned _ _)

end ElementSet

theorem ElementStep.run_matches (hr : reg.Twins S reg') {u u' : ElementSet α}
    (h : u'.core = u.core) (hv : u.view.Shared S) (st : ElementStep α) :
    (st.run u).Matches S (fun u u' => u'.core = u.core ∧ u.view.Shared S) (st.run u')
      reg reg' := by
  have hview : u'.view.core = u.view.core := congrArg ElementSet.view h
  have hkeep {a : View α → Action α (View α)}
      (ha : (a u.view).Matches S (fun v' w' => w'.core = v'.core ∧ v'.Shared S) (a u'.view)
        reg reg') :
      (do ElementSet.keeping (← a (← u.bag)) : Action α (ElementSet α)).Matches S
        (fun u u' => u'.core = u.core ∧ u.view.Shared S)
        (do ElementSet.keeping (← a (← u'.bag))) reg reg' :=
    ElementSet.bag_matches hr h (ha.bind fun _ _ _ _ hvw hr =>
      ElementSet.keeping_matches hr hvw.1 hvw.2)
  cases st with
  | head hi => exact hkeep (a := fun v => v.head hi) (View.narrow_matches hr hview hv _)
  | tail lo => exact hkeep (a := fun v => v.tail lo) (View.narrow_matches hr hview hv _)
  | sub lo hi => exact hkeep (a := fun v => v.sub lo hi) (View.sub_matches hr hview hv lo hi)
  | descending => exact ElementSet.descending_matches hr h hv

namespace EntrySet

variable {u u' : EntrySet α}

/-- What follows the references of two sets to their views. -/
theorem bag_matches (hr : reg.Twins S reg') (h : u'.core = u.core) {P : β → γ → Prop}
    {f : View α → Action α β} {f' : View α → Action α γ}
    (hf : (f u.view).Matches S P (f' u'.view) reg reg') :
    (u.bag >>= f).Matches S P (u'.bag >>= f') reg reg' :=
  have hview : (⟨.weak, u'.view⟩ : ElementSet α).core = (⟨.weak, u.view⟩ : ElementSet α).core :=
    congrArg (ElementSet.mk .weak) (congrArg EntrySet.view h)
  ElementSet.bag_matches hr hview hf

end EntrySet

namespace View

variable {v w : View α}

/-- The same sets are built. -/
theorem built_of_core (hr : reg.Twins S reg') (h : w.core = v.core) {n n' : Node α}
    (hn : reg.Has v n) (hn' : reg'.Has w n') :
    n'.hasElementSet = n.hasElementSet ∧ n'.hasEntrySet = n.hasEntrySet := by
  have hnode := hr.nodeOf? h
  rw [hn.found, hn'.found, Option.map_some, Option.map_some, Option.some.injEq] at hnode
  have helements : n'.core.hasElementSet = n.core.hasElementSet := congrArg Node.hasElementSet hnode
  have hentries : n'.core.hasEntrySet = n.core.hasEntrySet := congrArg Node.hasEntrySet hnode
  exact ⟨helements, hentries⟩

theorem elementSet_matches (hr : reg.Twins S reg') (h : Paired S reg reg' v w) :
    v.elementSet.Matches S (fun u u' => u'.core = u.core ∧ u.view.Shared S) w.elementSet
      reg reg' := by
  obtain ⟨n, hn⟩ := h.live.1
  obtain ⟨n', hn'⟩ := h.live'.1
  have hp := perform_elementSet hn
  have hp' := perform_elementSet hn'
  rw [(built_of_core hr h.core hn hn').1] at hp'
  refine ⟨?_, ?_⟩
  · rw [hp, hp']
    show Registry.Twins S (ite _ _ _) (ite _ _ _)
    split
    · exact hr
    · exact Registry.Twins.updateNode (hr.withLog _ _) h.core _ _
        (g := fun m => { m with hasElementSet := true }) (fun _ => rfl) (fun _ => rfl)
        (fun _ => rfl) fun _ => rfl
  · rw [hp, hp']
    exact .ok ⟨congrArg (ElementSet.mk .weak) h.core, h.shared⟩

theorem entrySet_matches (hr : reg.Twins S reg') (h : Paired S reg reg' v w) :
    v.entrySet.Matches S (fun u u' => u'.core = u.core ∧ u.view.Shared S) w.entrySet
      reg reg' := by
  obtain ⟨n, hn⟩ := h.live.1
  obtain ⟨n', hn'⟩ := h.live'.1
  have hp := perform_entrySet hn
  have hp' := perform_entrySet hn'
  rw [(built_of_core hr h.core hn hn').2] at hp'
  refine ⟨?_, ?_⟩
  · rw [hp, hp']
    show Registry.Twins S (ite _ _ _) (ite _ _ _)
    split
    · exact hr
    · exact Registry.Twins.updateNode (hr.withLog _ _) h.core _ _
        (g := fun m => { m with hasEntrySet := true }) (fun _ => rfl) (fun _ => rfl)
        (fun _ => rfl) fun _ => rfl
  · rw [hp, hp']
    exact .ok ⟨congrArg EntrySet.mk h.core, h.shared⟩

end View

end OrderedBag
