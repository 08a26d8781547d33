import OrderedBag.Proofs.Outlook

/-!
# Exploring tells what the outlook says

A session in which a bag is explored tells exactly what the outlook of that bag says, step by step,
whatever kind of source is behind it and however many views lie between the source and the bag. All
that is asked for is that the explorer keeps what was made: no name is given twice. Only who asks a
view that miscounts whether it is empty is told otherwise.

* `View.Backed` — whatever a view refers to weakly is held by the table
* `Session.Follows` — a session and an outlook agree
* `Session.Follows.step`, `Session.Follows.run` — and so they do after any exploration
-/

namespace OrderedBag

open OrderedBag.Action

variable {α : Type}

/-! ## Steps after steps -/

namespace ViewStep

theorem towards_heading_append (c : Comparator α) (path path' : List (ViewStep α)) :
    c.towards (heading (path ++ path')) = (c.towards (heading path)).towards (heading path') := by
  rw [← foldl_turn, ← foldl_turn, ← foldl_turn, List.foldl_append]

theorem orient_heading_append (path path' : List (ViewStep α)) (es : List (Entry α)) :
    (heading (path ++ path')).orient es = (heading path').orient ((heading path).orient es) := by
  induction path with
  | nil => rfl
  | cons st path ih =>
    rw [List.cons_append, heading_cons, heading_cons]
    cases st.turns with
    | false => exact ih
    | true =>
      -- a turn at the beginning is as good as a turn at the end
      have hreverse (es : List (Entry α)) :
          (heading path').orient es.reverse = ((heading path').orient es).reverse := by
        cases heading path' <;> rfl
      simp only [if_true, Direction.orient_flip]
      rw [ih, hreverse]

end ViewStep

/-! ## What an outlook reflects -/

/-- The outlook is that of a bag to which `base` leads from the source `M`. -/
structure Outlook.Reflects (o : Outlook α) (contents : BagId → Histogram α) (M : Source α)
    (base : List (ViewStep α)) : Prop where
  comparator : o.comparator = M.comparator.towards (ViewStep.heading base)
  entries : o.entries = (ViewStep.heading base).orient ((contents M.bag).entries.filter fun e =>
    ViewStep.satisfies M.comparator base e.element)

namespace Outlook

variable {o : Outlook α} {contents : BagId → Histogram α} {M : Source α}
  {base path : List (ViewStep α)} {v : View α}

theorem Reflects.order_eq (h : o.Reflects contents M base) (hv : v.Means M (base ++ path)) :
    v.order = o.order path := by
  rw [View.order_eq, hv.root, hv.facing, ViewStep.towards_heading_append, order, h.comparator]

theorem Reflects.listing_eq (h : o.Reflects contents M base) (hv : v.Means M (base ++ path)) :
    v.listing contents = o.listing path := by
  rw [View.listing_eq, hv.root, hv.facing, ViewStep.orient_heading_append, listing, h.entries,
    Direction.filter_orient, List.filter_filter, h.comparator]
  simp only [hv.admits, ViewStep.satisfies_append, Bool.and_comm]

/-- The entry that goes from the source goes from the outlook. -/
theorem Reflects.without (h : o.Reflects contents M base)
    (hvalid : (contents M.bag).Valid M.comparator) (hroot : v.root = M) (e? : Option (Entry α)) :
    (o.without e?).Reflects (v.without contents e?) M base := by
  cases e? with
  | none => exact h
  | some e =>
    refine ⟨h.comparator, ?_⟩
    have hbag : v.without contents (some e) M.bag =
        (contents M.bag).erase M.comparator e.element := by
      rw [View.without, hroot]
      exact if_pos rfl
    rw [hbag, hvalid.entries_erase, Outlook.without, h.entries, h.comparator,
      Direction.filter_orient, List.filter_filter, List.filter_filter]
    simp only [Comparator.isEq_towards, Bool.and_comm]

theorem Reflects.bind (h : o.Reflects contents M base) (name : String) (x : Showing α) :
    (o.bind name x).Reflects contents M base :=
  ⟨h.comparator, h.entries⟩

end Outlook

/-! ## Views that do not miscount -/

/-- Nothing that some steps lead to miscounts: the source does not look at its running total, or
one of the steps narrows it. -/
def Source.Uncounted (M : Source α) (base : List (ViewStep α)) : Prop :=
  M.access ≠ .indexed ∨ ∃ st ∈ base, st.Narrows

theorem View.Means.not_miscounts {M : Source α} {base path : List (ViewStep α)} {v : View α}
    (hm : v.Means M (base ++ path)) (h : M.Uncounted base) {contents : BagId → Histogram α} :
    ¬ v.Miscounts contents := by
  intro hmiscounts
  rcases h with haccess | ⟨st, hst, hnarrows⟩
  · exact haccess (hm.root ▸ hmiscounts.indexed)
  · exact hmiscounts.not_isRange (hm.ranged.mpr ⟨st, List.mem_append_left path hst, hnarrows⟩)

/-! ## Views whose references are held -/

namespace View

/-- Whatever the view and those behind it refer to weakly is held. -/
def Backed (held : List NodeId) : View α → Prop
  | source _ | range _ _ _ => True
  | descending _ .strong f => f.Backed held
  | descending _ .weak f => (∃ i ∈ held, f.node? = some i) ∧ f.Backed held

variable {reg : Registry α} {held : List NodeId} {v w : View α}

theorem Backed.mono (h : v.Backed held) {held' : List NodeId} (hsub : ∀ i ∈ held, i ∈ held') :
    v.Backed held' := by
  induction v with
  | source s => trivial
  | range n s r => trivial
  | descending n link f ih =>
    cases link with
    | strong => exact ih h
    | weak =>
      obtain ⟨⟨i, hi, hnode⟩, hf⟩ := h
      exact ⟨⟨i, hsub i hi, hnode⟩, ih hf⟩

theorem backed_narrowed (v : View α) (q : Interval α) (held : List NodeId) :
    (v.narrowed q).Backed held := by
  induction v generalizing q with
  | source s => trivial
  | range n s r => trivial
  | descending n link f ih => exact ih q.reverse

theorem Backed.enroll (h : v.Backed held) (hsup : reg.Supports v) :
    (reg.enroll v).1.Backed held := by
  induction v with
  | source s => trivial
  | range n s r => cases n <;> trivial
  | descending n link f ih =>
    cases n with
    | some i => exact h
    | none =>
      cases link with
      | strong => exact ih h hsup
      | weak => exact hsup.elim

/-- A view whose references are held can be asked, since what is held exists. -/
theorem Backed.canReach (h : v.Backed held) (hheld : ∀ i ∈ held, reg.isAlive i = true)
    (hatt : v.root.access ≠ .detached) : reg.canReach v = true := by
  induction v with
  | source s => rfl
  | range n s r => rfl
  | descending n link f ih =>
    cases link with
    | strong => exact ih h hatt
    | weak =>
      obtain ⟨⟨i, hi, hnode⟩, hf⟩ := h
      have halive : f.node?.any reg.isAlive = true :=
        (Option.any_eq_true _ _).mpr ⟨i, hnode, hheld i hi⟩
      rw [Registry.canReach, Registry.canUpgrade, halive, isDetached_eq_false (v := f) hatt,
        ih hf hatt]
      rfl

/-- What a step makes of a held view refers weakly to held views only. -/
theorem Backed.step (h : v.Backed held) (hv : ∃ i ∈ held, v.node? = some i) {st : ViewStep α}
    (hw : st.Makes v w) : w.Backed held := by
  cases st with
  | head hi => exact hw ▸ backed_narrowed v _ held
  | tail lo => exact hw ▸ backed_narrowed v _ held
  | sub lo hi => exact hw ▸ backed_narrowed v _ held
  | itself => exact hw ▸ h
  | reversed =>
    rcases hw with ⟨n, link, rfl⟩ | ⟨-, j, rfl⟩
    · cases link with
      | strong => exact h
      | weak => exact h.2
    · exact ⟨hv, h⟩

theorem Backed.elementStep {s t : ElementSet α} (h : s.view.Backed held) {st : ElementStep α}
    (ht : st.Makes s t) : t.view.Backed held := by
  cases st with
  | head hi => exact ht ▸ backed_narrowed s.view _ held
  | tail lo => exact ht ▸ backed_narrowed s.view _ held
  | sub lo hi => exact ht ▸ backed_narrowed s.view _ held
  | descending => exact ht ▸ h

theorem Means.elementStep {s t : ElementSet α} {b : Source α} {path : List (ViewStep α)}
    (h : s.view.Means b path) {st : ElementStep α} (ht : st.Makes s t) :
    t.view.Means b (path ++ [st.onView]) := by
  cases st with
  | head hi =>
    obtain rfl := ht
    exact h.step rfl
  | tail lo =>
    obtain rfl := ht
    exact h.step rfl
  | sub lo hi =>
    obtain rfl := ht
    exact h.step rfl
  | descending => exact ht ▸ h.descending none .strong

end View

/-! ## Sessions that follow an outlook -/

/-- The handle of a name shows what the outlook says. -/
def Handle.Shows (M : Source α) (base : List (ViewStep α)) : Handle α → Showing α → Prop
  | .bag v, .bag path => v.Means M (base ++ path)
  | .elements u, .elements path => u.view.Means M (base ++ path)
  | .entries u, .entries path => u.view.Means M (base ++ path)
  | _, _ => False

/-- Whatever the view of a handle refers to weakly is held. -/
def Handle.Backed (held : List NodeId) : Handle α → Prop
  | .bag v => v.Backed held
  | .elements u => u.view.Backed held
  | .entries u => u.view.Backed held
  | .walk _ | .comparator _ | .weak _ => True

theorem Handle.Backed.mono {h : Handle α} {held held' : List NodeId} (hb : h.Backed held)
    (hsub : ∀ i ∈ held, i ∈ held') : h.Backed held' := by
  cases h with
  | bag v => exact View.Backed.mono hb hsub
  | elements u => exact View.Backed.mono hb hsub
  | entries u => exact View.Backed.mono hb hsub
  | walk w => trivial
  | comparator c => trivial
  | weak v => trivial

/-- A session and an outlook agree on a bag to which `base` leads from the source `M`, as far as the
names go that the explorer may use. -/
structure Session.Follows (M : Source α) (base : List (ViewStep α)) (usable : String → Prop)
    (s : Session α) (o : Outlook α) : Prop where
  sound : s.Sound
  reflects : o.Reflects s.registry.contents M base
  shown : ∀ name x, o.names name = some x →
    ∃ h, s.table.find? name = some h ∧ h.Shows M base x ∧ h.Backed s.table.held
  hidden : ∀ name, usable name → o.names name = none → s.table.find? name = none

namespace Session

variable {M : Source α} {base : List (ViewStep α)} {usable : String → Prop} {s : Session α}
  {o : Outlook α} {name : String}

/-! ### Names -/

/-- A name is of the wanted kind in both the table and the outlook, or in neither. -/
theorem Follows.expect (h : s.Follows M base usable o) (hname : usable name) {β : Type}
    {pick : Handle α → Option β} {pick' : Showing α → Option (List (ViewStep α))}
    (hpick : ∀ handle x, handle.Shows M base x → (pick handle).isSome = (pick' x).isSome) :
    (∃ handle x b path, s.table.find? name = some handle ∧ handle.Shows M base x ∧
      handle.Backed s.table.held ∧ pick handle = some b ∧ pick' x = some path ∧
      o.expect pick' name = .ok path ∧
      ∀ reg, (s.table.expect pick name).perform reg = (.ok b, reg)) ∨
    o.expect pick' name = .error (.unsuitableHandle name) ∧
      ∀ reg, (s.table.expect pick name).perform reg =
        (.error (.unsuitableHandle name), reg) := by
  unfold Outlook.expect
  simp only [Table.perform_expect]
  cases hx : o.names name with
  | none =>
    rw [h.hidden name hname hx]
    exact .inr ⟨rfl, fun _ => rfl⟩
  | some x =>
    obtain ⟨handle, hfind, hshows, hbacked⟩ := h.shown name x hx
    have hsame := hpick handle x hshows
    rw [hfind, Option.bind_some, Option.bind_some]
    cases hb : pick handle with
    | none =>
      rw [hb, Option.isSome_none, eq_comm, Option.isSome_eq_false_iff, Option.isNone_iff_eq_none]
        at hsame
      rw [hsame]
      exact .inr ⟨rfl, fun _ => rfl⟩
    | some b =>
      rw [hb, Option.isSome_some, eq_comm, Option.isSome_iff_exists] at hsame
      obtain ⟨path, hpath⟩ := hsame
      rw [hpath]
      exact .inl ⟨handle, x, b, path, rfl, hshows, hbacked, hb, hpath, rfl, fun _ => rfl⟩

theorem Follows.bag (h : s.Follows M base usable o) (hname : usable name) :
    (∃ v path, o.bag name = .ok path ∧ (∀ reg, (s.table.bag name).perform reg = (.ok v, reg)) ∧
      s.table.find? name = some (.bag v) ∧ v.Means M (base ++ path) ∧ v.Backed s.table.held) ∨
    o.bag name = .error (.unsuitableHandle name) ∧
      ∀ reg, (s.table.bag name).perform reg = (.error (.unsuitableHandle name), reg) := by
  refine (h.expect hname ?_).imp ?_ id
  · intro handle x hs
    cases handle <;> cases x <;> first | rfl | cases hs
  · rintro ⟨handle, x, v, path, hfind, hshows, hbacked, hv, hpath, ho, ht⟩
    cases handle <;> cases hv
    cases x <;> cases hpath
    exact ⟨v, path, ho, ht, hfind, hshows, hbacked⟩

theorem Follows.elements (h : s.Follows M base usable o) (hname : usable name) :
    (∃ u path, o.elements name = .ok path ∧
      (∀ reg, (s.table.elements name).perform reg = (.ok u, reg)) ∧
      s.table.find? name = some (.elements u) ∧ u.view.Means M (base ++ path) ∧
      u.view.Backed s.table.held) ∨
    o.elements name = .error (.unsuitableHandle name) ∧
      ∀ reg, (s.table.elements name).perform reg = (.error (.unsuitableHandle name), reg) := by
  refine (h.expect hname ?_).imp ?_ id
  · intro handle x hs
    cases handle <;> cases x <;> first | rfl | cases hs
  · rintro ⟨handle, x, u, path, hfind, hshows, hbacked, hu, hpath, ho, ht⟩
    cases handle <;> cases hu
    cases x <;> cases hpath
    exact ⟨u, path, ho, ht, hfind, hshows, hbacked⟩

theorem Follows.entrySet (h : s.Follows M base usable o) (hname : usable name) :
    (∃ u path, o.entrySet name = .ok path ∧
      (∀ reg, (s.table.entries name).perform reg = (.ok u, reg)) ∧
      s.table.find? name = some (.entries u) ∧ u.view.Means M (base ++ path) ∧
      u.view.Backed s.table.held) ∨
    o.entrySet name = .error (.unsuitableHandle name) ∧
      ∀ reg, (s.table.entries name).perform reg = (.error (.unsuitableHandle name), reg) := by
  refine (h.expect hname ?_).imp ?_ id
  · intro handle x hs
    cases handle <;> cases x <;> first | rfl | cases hs
  · rintro ⟨handle, x, u, path, hfind, hshows, hbacked, hu, hpath, ho, ht⟩
    cases handle <;> cases hu
    cases x <;> cases hpath
    exact ⟨u, path, ho, ht, hfind, hshows, hbacked⟩

/-- A view that a name shows can be asked. -/
theorem Follows.intact (h : s.Follows M base usable o) (hatt : M.access ≠ .detached) {v : View α}
    {path : List (ViewStep α)} (hl : s.fresh.Live v) (hm : v.Means M (base ++ path))
    (hb : v.Backed s.table.held) : v.Intact s.fresh := by
  have hroot : v.root.access ≠ .detached := by rwa [hm.root]
  exact ⟨hl.1, hb.canReach (fun i hi => h.sound.live_fresh.isAlive hi) hroot, hroot⟩

/-! ### Deriving -/

/-- An action makes a handle that shows what the outlook says, or fails as the outlook says. -/
def Agrees (M : Source α) (base : List (ViewStep α)) (s : Session α) (a : Action α (Handle α)) :
    Except Failure (Showing α) → Prop
  | .ok x => ∃ handle, a.Gives s.fresh (.ok handle) s.registry.contents ∧ handle.Shows M base x ∧
      handle.Backed s.table.held
  | .error e => a.Gives s.fresh (.error e) s.registry.contents

/-- A new view gets a node, and shows what the outlook says. -/
theorem agrees_ofView {a : Action α (View α)} {w : View α} {reg : Registry α}
    {path : List (ViewStep α)} (ha : a.perform s.fresh = (.ok w, reg)) (hm : s.fresh.Moves reg)
    (hk : reg.contents = s.registry.contents) (hsup : reg.Supports w)
    (hmeans : w.Means M (base ++ path)) (hb : w.Backed s.table.held) :
    Agrees M base s (a >>= Handle.ofView) (.ok (.bag path)) := by
  refine ⟨.bag (reg.enroll w).1, ⟨(reg.enroll w).2, perform_bind_ok ha, ?_, ?_⟩,
    hmeans.enroll reg, hb.enroll hsup⟩
  · exact hm.trans (Registry.enroll_spec hsup).1
  · rw [Registry.contents_enroll, hk]

theorem agrees_ofElements {a : Action α (ElementSet α)} {u : ElementSet α} {reg : Registry α}
    {path : List (ViewStep α)} (ha : a.perform s.fresh = (.ok u, reg)) (hm : s.fresh.Moves reg)
    (hk : reg.contents = s.registry.contents) (hsup : reg.Supports u.view)
    (hmeans : u.view.Means M (base ++ path)) (hb : u.view.Backed s.table.held) :
    Agrees M base s (a >>= Handle.ofElements) (.ok (.elements path)) := by
  refine ⟨.elements { u with view := (reg.enroll u.view).1 },
    ⟨(reg.enroll u.view).2, perform_bind_ok ha, ?_, ?_⟩, hmeans.enroll reg, hb.enroll hsup⟩
  · exact hm.trans (Registry.enroll_spec hsup).1
  · rw [Registry.contents_enroll, hk]

/-- What a failed look-up leads to. -/
theorem agrees_error {β : Type} {a : Action α β} {f : β → Action α (Handle α)} {e : Failure}
    (ha : a.perform s.fresh = (.error e, s.fresh)) : Agrees M base s (a >>= f) (.error e) :=
  ⟨s.fresh, perform_bind_error ha, .refl, rfl⟩

theorem Agrees.after {β : Type} {a : Action α β} {b : β} {f : β → Action α (Handle α)}
    {r : Except Failure (Showing α)} (ha : a.perform s.fresh = (.ok b, s.fresh))
    (hf : Agrees M base s (f b) r) : Agrees M base s (a >>= f) r := by
  cases r with
  | error e => exact Gives.after ha hf
  | ok x =>
    obtain ⟨handle, hgives, hshows⟩ := hf
    exact ⟨handle, Gives.after ha hgives, hshows⟩

/-- What is derived from a bag agrees, if it does for every bag that the name may show. -/
theorem Follows.fromBag (h : s.Follows M base usable o) (hname : usable name)
    {f : View α → Action α (Handle α)} {g : List (ViewStep α) → Except Failure (Showing α)}
    (hf : ∀ v path, s.table.find? name = some (.bag v) → v.Means M (base ++ path) →
      v.Backed s.table.held → Agrees M base s (f v) (g path)) :
    Agrees M base s (s.table.bag name >>= f) (o.bag name >>= g) := by
  rcases h.bag hname with ⟨v, path, ho, ht, hfind, hm, hb⟩ | ⟨ho, ht⟩
  · rw [ho]
    exact .after (ht _) (hf v path hfind hm hb)
  · rw [ho]
    exact agrees_error (ht _)

theorem Follows.fromElements (h : s.Follows M base usable o) (hname : usable name)
    {f : ElementSet α → Action α (Handle α)} {g : List (ViewStep α) → Except Failure (Showing α)}
    (hf : ∀ u path, s.table.find? name = some (.elements u) → u.view.Means M (base ++ path) →
      u.view.Backed s.table.held → Agrees M base s (f u) (g path)) :
    Agrees M base s (s.table.elements name >>= f) (o.elements name >>= g) := by
  rcases h.elements hname with ⟨u, path, ho, ht, hfind, hm, hb⟩ | ⟨ho, ht⟩
  · rw [ho]
    exact .after (ht _) (hf u path hfind hm hb)
  · rw [ho]
    exact agrees_error (ht _)

theorem Follows.fromEntrySet (h : s.Follows M base usable o) (hname : usable name)
    {f : EntrySet α → Action α (Handle α)} {g : List (ViewStep α) → Except Failure (Showing α)}
    (hf : ∀ u path, s.table.find? name = some (.entries u) → u.view.Means M (base ++ path) →
      u.view.Backed s.table.held → Agrees M base s (f u) (g path)) :
    Agrees M base s (s.table.entries name >>= f) (o.entrySet name >>= g) := by
  rcases h.entrySet hname with ⟨u, path, ho, ht, hfind, hm, hb⟩ | ⟨ho, ht⟩
  · rw [ho]
    exact .after (ht _) (hf u path hfind hm hb)
  · rw [ho]
    exact agrees_error (ht _)

/-- A step leads to the view that the outlook says, or is refused as the outlook says. -/
theorem Follows.view (h : s.Follows M base usable o) (hatt : M.access ≠ .detached)
    {v : View α} {path : List (ViewStep α)} (hfind : s.table.find? name = some (.bag v))
    (hm : v.Means M (base ++ path)) (hb : v.Backed s.table.held) (st : ViewStep α) :
    Agrees M base s (st.run v >>= Handle.ofView) ((o.further path st).map Showing.bag) := by
  have hs := h.sound.fresh
  have hl : s.fresh.Live v := h.sound.live_fresh.find? hfind
  have hv := h.intact hatt hl hm hb
  have horder := h.reflects.order_eq hm
  unfold Outlook.further
  cases hst : st.refused (o.order path) with
  | true => exact (ViewStep.run_refused hv (horder ▸ hst)).bind_error.gives
  | false =>
    obtain ⟨w, hgives⟩ := ViewStep.run_gives hs hl hv (horder ▸ hst)
    -- what is known of any step that succeeds holds of this one
    obtain ⟨reg, hp, hmoves, hk, hsup, hmakes⟩ := hgives.with_ends (ViewStep.run_ends hs hl st)
    obtain ⟨i, hi, -⟩ := hl.index
    have hheld : i ∈ s.table.held := Table.mem_held (Table.mem_of_find? hfind) hi
    refine agrees_ofView hp hmoves hk hsup ?_ (hb.step ⟨i, hheld, hi⟩ hmakes)
    rw [← List.append_assoc]
    exact hm.step hmakes

theorem Follows.derivedSet (h : s.Follows M base usable o) (hatt : M.access ≠ .detached)
    {u : ElementSet α} {path : List (ViewStep α)} (hfind : s.table.find? name = some (.elements u))
    (hm : u.view.Means M (base ++ path)) (hb : u.view.Backed s.table.held) (st : ElementStep α) :
    Agrees M base s (st.run u >>= Handle.ofElements)
      ((o.further path st.onView).map Showing.elements) := by
  have hs := h.sound.fresh
  have hl : s.fresh.Live u.view := h.sound.live_fresh.find? hfind
  have hv := h.intact hatt hl hm hb
  have hu : u.Intact s.fresh := ⟨hv, View.follow_eq_ok hl hv.attached u.link⟩
  have horder := h.reflects.order_eq hm
  unfold Outlook.further
  cases hst : st.onView.refused (o.order path) with
  | true => exact (ElementStep.run_refused hu (horder ▸ hst)).bind_error.gives
  | false =>
    obtain ⟨w, hanswers⟩ := ElementStep.run_answers (hv.usable hs) hu (horder ▸ hst)
    obtain ⟨reg, hp, hmoves, hk, hsup, hmakes⟩ :=
      hanswers.gives.with_ends (ElementStep.run_ends hs hl st)
    refine agrees_ofElements hp hmoves hk hsup ?_ (hb.elementStep hmakes)
    rw [← List.append_assoc]
    exact hm.elementStep hmakes

variable [Ord α] [Std.TransOrd α]

/-- What is derived shows what the outlook says. -/
theorem Follows.derive (h : s.Follows M base usable o) (hatt : M.access ≠ .detached)
    {d : Derivation α} (hname : usable d.origin) :
    Agrees M base s (d.making.run s.table) (o.derive d) := by
  have hs := h.sound
  cases d with
  | view name st =>
    refine h.fromBag hname fun v path hfind hm hb => ?_
    have hview := h.view hatt hfind hm hb st
    cases hst : o.further path st <;> rw [hst] at hview <;> exact hview
  | elementSet name =>
    refine h.fromBag hname fun v path hfind hm hb => ?_
    have hl : s.fresh.Live v := hs.live_fresh.find? hfind
    exact ⟨_, (View.elementSet_gives hl.1).map Handle.elements, hm, hb⟩
  | entrySet name =>
    refine h.fromBag hname fun v path hfind hm hb => ?_
    have hl : s.fresh.Live v := hs.live_fresh.find? hfind
    exact ⟨_, (View.entrySet_gives hl.1).map Handle.entries, hm, hb⟩
  | elements name st =>
    refine h.fromElements hname fun u path hfind hm hb => ?_
    have hset := h.derivedSet hatt hfind hm hb st
    cases hst : o.further path st.onView <;> rw [hst] at hset <;> exact hset
  | bagOfElements name =>
    refine h.fromElements hname fun u path hfind hm hb => ?_
    have hl : s.fresh.Live u.view := hs.live_fresh.find? hfind
    have hbag := ElementSet.perform_bag
      (View.follow_eq_ok hl (h.intact hatt hl hm hb).attached u.link)
    exact agrees_ofView hbag .refl rfl hl.supports hm hb
  | bagOfEntries name =>
    refine h.fromEntrySet hname fun u path hfind hm hb => ?_
    have hl : s.fresh.Live u.view := hs.live_fresh.find? hfind
    have hbag := EntrySet.perform_bag
      (View.follow_eq_ok hl (h.intact hatt hl hm hb).attached .weak)
    exact agrees_ofView hbag .refl rfl hl.supports hm hb

/-! ### Steps and runs -/

variable [Shown α] (watched : List String)

/-- After a command that binds no name the session follows an outlook with the same names. -/
theorem Follows.stay (h : s.Follows M base usable o) {c : Command α} (hc : c.Valid)
    {answer : Except Failure (Answer α)} {k : BagId → Histogram α} {o' : Outlook α}
    (hgives : (c.run s.table).Gives s.fresh (answer.map fun a => (a, s.table)) k)
    (hk : o'.Reflects k M base) (hnames : o'.names = o.names) :
    (s.step watched c).1.outcome = answer ∧ (s.step watched c).2.Follows M base usable o' := by
  obtain ⟨hout, htable, hcontents⟩ := step_of_answer hgives watched
  refine ⟨hout, h.sound.step hc watched, hcontents ▸ hk, ?_, ?_⟩
  · rw [htable, hnames]
    exact h.shown
  · rw [htable, hnames]
    exact h.hidden

/-- After a name is bound to what the outlook says, the session follows the outlook with that
name. -/
theorem Follows.bound (h : s.Follows M base usable o) {c : Command α} (hc : c.Valid)
    {new : String} {handle : Handle α} {x : Showing α} (hnew : s.table.find? new = none)
    (hgives : (c.run s.table).Gives s.fresh (.ok (.done, s.table.bind new handle))
      s.registry.contents)
    (hshows : handle.Shows M base x) (hbacked : handle.Backed s.table.held) :
    (s.step watched c).1.outcome = .ok .done ∧
      (s.step watched c).2.Follows M base usable (o.bind new x) := by
  obtain ⟨hout, htable, hcontents⟩ := step_of_gives watched hgives
  have htable : (s.step watched c).2.table = s.table.bind new handle := htable
  have hheld (i : NodeId) : i ∈ s.table.held → i ∈ (s.table.bind new handle).held :=
    Table.mem_held_bind hnew handle
  refine ⟨hout, h.sound.step hc watched, hcontents ▸ h.reflects.bind new x, ?_, ?_⟩
  · intro name y hy
    rw [htable]
    by_cases hname : name = new
    · subst hname
      obtain rfl : x = y := by simpa [Outlook.bind] using hy
      exact ⟨handle, Table.find?_bind_self _ _ _, hshows, hbacked.mono hheld⟩
    · obtain ⟨handle', hfind, hshows', hbacked'⟩ := h.shown name y (by
        simpa [Outlook.bind, hname] using hy)
      exact ⟨handle', (Table.find?_bind_of_ne _ hname _).trans hfind, hshows', hbacked'.mono hheld⟩
  · -- names that the explorer has not given yet stay free
    intro name husable hnone
    have hname : name ≠ new := by
      rintro rfl
      simp [Outlook.bind] at hnone
    rw [htable, Table.find?_bind_of_ne _ hname]
    exact h.hidden name husable (by simpa [Outlook.bind, hname] using hnone)

/-- After a bag or a set was asked, the entry that went is gone from the outlook as well. -/
theorem Follows.asked (h : s.Follows M base usable o) {c : Command α} (hc : c.Valid)
    {answer : Except Failure (Answer α)} {v : View α} {path : List (ViewStep α)}
    (hl : s.fresh.Live v) (hm : v.Means M (base ++ path)) (e? : Option (Entry α))
    (hgives : (c.run s.table).Gives s.fresh (answer.map fun a => (a, s.table))
      (v.without s.registry.contents e?)) :
    (s.step watched c).1.outcome = answer ∧
      (s.step watched c).2.Follows M base usable (o.without e?) := by
  have hs := h.sound.fresh
  have hvalid : (s.registry.contents v.root.bag).Valid v.root.comparator :=
    (hs.stocks_root hl.1).2
  rw [hm.root] at hvalid
  exact h.stay watched hc hgives (h.reflects.without hvalid hm.root e?) (o.names_without e?)

/-- A command that fails on a name changes nothing. -/
theorem Follows.failed (h : s.Follows M base usable o) {c : Command α} (hc : c.Valid) {e : Failure}
    (hperform : (c.run s.table).perform s.fresh = (.error e, s.fresh)) :
    (s.step watched c).1.outcome = .error e ∧ (s.step watched c).2.Follows M base usable o := by
  have hgives : (c.run s.table).Gives s.fresh (.error e) s.registry.contents :=
    ⟨s.fresh, hperform, .refl, rfl⟩
  exact h.stay watched hc hgives h.reflects rfl

omit [Ord α] [Std.TransOrd α] [Shown α] in
/-- Where nothing miscounts, nobody is misled. -/
theorem Follows.not_misled (h : s.Follows M base usable o) (hM : M.Uncounted base)
    {e : Exploration α} (hasked : usable e.asked) : ¬ s.Misled e.command := by
  rintro ⟨w, hw, hmiscounts⟩
  have hnot {path : List (ViewStep α)} (hm : w.Means M (base ++ path)) : False :=
    hm.not_miscounts hM hmiscounts
  cases e with
  | derive new d => cases hw
  | askBag name q =>
    have hfind := (Command.probed?_askBag.mp hw).2
    rcases h.bag hasked with ⟨v, path, -, -, hfind', hm, -⟩ | ⟨-, ht⟩
    · obtain rfl := Handle.bag.inj (Option.some.inj (hfind.symm.trans hfind'))
      exact hnot hm
    · cases (Table.perform_bag hfind s.fresh).symm.trans (ht _)
  | askElements name q =>
    obtain ⟨-, u, hfind, rfl⟩ := Command.probed?_askElements.mp hw
    rcases h.elements hasked with ⟨u', path, -, -, hfind', hm, -⟩ | ⟨-, ht⟩
    · obtain rfl := Handle.elements.inj (Option.some.inj (hfind.symm.trans hfind'))
      exact hnot hm
    · cases (Table.perform_elements hfind s.fresh).symm.trans (ht _)
  | askEntries name q =>
    obtain ⟨-, u, hfind, rfl⟩ := Command.probed?_askEntries.mp hw
    rcases h.entrySet hasked with ⟨u', path, -, -, hfind', hm, -⟩ | ⟨-, ht⟩
    · obtain rfl := Handle.entries.inj (Option.some.inj (hfind.symm.trans hfind'))
      exact hnot hm
    · cases (Table.perform_entries hfind s.fresh).symm.trans (ht _)

/-- An exploration tells what the outlook says, unless it is misled, and the session follows the
outlook afterwards in any case. -/
theorem Follows.step (h : s.Follows M base usable o) (hatt : M.access ≠ .detached)
    {e : Exploration α} (hasked : usable e.asked)
    (hnew : ∀ new, e.new? = some new → usable new ∧ o.names new = none) :
    s.TellsDue e.command (s.step watched e.command).1.outcome (o.step e).1 ∧
      (s.step watched e.command).2.Follows M base usable (o.step e).2 := by
  have hvalid := e.valid_command
  have hs := h.sound.fresh
  cases e with
  | derive new d =>
    have hquiet : ¬ s.Misled (.bind new d.making) := fun ⟨_, hw, _⟩ => nomatch hw
    have hdue (o : Except Failure (Answer α)) := tellsDue_of_not_misled hquiet o
    obtain ⟨husable, hnone⟩ := hnew new rfl
    have hagrees := h.derive hatt hasked
    rw [Outlook.step]
    cases hd : o.derive d with
    | ok x =>
      rw [hd] at hagrees
      obtain ⟨handle, hgives, hshows, hbacked⟩ := hagrees
      have hbind : ((Command.bind new d.making).run s.table).Gives s.fresh
          (.ok (.done, s.table.bind new handle)) s.registry.contents :=
        hgives.map fun handle => (Answer.done, s.table.bind new handle)
      obtain ⟨hout, hfollows⟩ :=
        h.bound watched hvalid (h.hidden new husable hnone) hbind hshows hbacked
      exact ⟨hout ▸ hdue _, hfollows⟩
    | error e =>
      rw [hd] at hagrees
      let failed : Except Failure (Answer α) := .error e
      have hfail : ((Command.bind new d.making).run s.table).Gives s.fresh
          (failed.map fun a => (a, s.table)) s.registry.contents := hagrees.bind_error
      obtain ⟨hout, hfollows⟩ := h.stay watched hvalid hfail h.reflects rfl
      exact ⟨hout ▸ hdue _, hfollows⟩
  | askBag name q =>
    have hname : usable name := hasked
    rw [Outlook.step]
    rcases h.bag hname with ⟨v, path, ho, ht, hfind, hm, hb⟩ | ⟨ho, ht⟩
    · have hl : s.fresh.Live v := h.sound.live_fresh.find? hfind
      have hgives := q.run_gives hs (h.intact hatt hl hm hb)
      have hask : ((Command.askBag name q).run s.table).Gives s.fresh _ _ :=
        .after (ht _) (hgives.map fun a => (a, s.table))
      rw [ho]
      simp only [← h.reflects.order_eq hm, ← h.reflects.listing_eq hm]
      obtain ⟨hout, hfollows⟩ := h.asked watched hvalid hl hm _ hask
      exact ⟨hout ▸ q.tellsDue h.sound hfind _ _, hfollows⟩
    · rw [ho]
      obtain ⟨hout, hfollows⟩ := h.failed watched hvalid (perform_bind_error (ht _))
      refine ⟨hout ▸ tellsDue_of_not_misled ?_ _, hfollows⟩
      rintro ⟨w, hw, -⟩
      cases (Table.perform_bag (Command.probed?_askBag.mp hw).2 s.fresh).symm.trans (ht _)
  | askElements name q =>
    have hname : usable name := hasked
    rw [Outlook.step]
    rcases h.elements hname with ⟨u, path, ho, ht, hfind, hm, hb⟩ | ⟨ho, ht⟩
    · have hl : s.fresh.Live u.view := h.sound.live_fresh.find? hfind
      have hv := h.intact hatt hl hm hb
      have hgives := q.run_gives hs ⟨hv, View.follow_eq_ok hl hv.attached u.link⟩
      have hask : ((Command.askElements name q).run s.table).Gives s.fresh _ _ :=
        .after (ht _) (hgives.map fun a => (a, s.table))
      rw [ho]
      simp only [← h.reflects.order_eq hm, ← h.reflects.listing_eq hm]
      obtain ⟨hout, hfollows⟩ := h.asked watched hvalid hl hm _ hask
      exact ⟨hout ▸ q.tellsDue h.sound hfind _ _, hfollows⟩
    · rw [ho]
      obtain ⟨hout, hfollows⟩ := h.failed watched hvalid (perform_bind_error (ht _))
      refine ⟨hout ▸ tellsDue_of_not_misled ?_ _, hfollows⟩
      rintro ⟨w, hw, -⟩
      obtain ⟨-, u, hfind, -⟩ := Command.probed?_askElements.mp hw
      cases (Table.perform_elements hfind s.fresh).symm.trans (ht _)
  | askEntries name q =>
    have hname : usable name := hasked
    rw [Outlook.step]
    rcases h.entrySet hname with ⟨u, path, ho, ht, hfind, hm, hb⟩ | ⟨ho, ht⟩
    · have hl : s.fresh.Live u.view := h.sound.live_fresh.find? hfind
      have hv := h.intact hatt hl hm hb
      have hanswers := q.run_answers hs ⟨hv, View.follow_eq_ok hl hv.attached .weak⟩
      have hask : ((Command.askEntries name q).run s.table).Gives s.fresh _ _ :=
        .after (ht _) (hanswers.map fun a => (a, s.table)).gives
      rw [ho]
      simp only [← h.reflects.order_eq hm, ← h.reflects.listing_eq hm]
      obtain ⟨hout, hfollows⟩ := h.asked watched hvalid hl hm none hask
      exact ⟨hout ▸ q.tellsDue h.sound hfind _ _, hfollows⟩
    · rw [ho]
      obtain ⟨hout, hfollows⟩ := h.failed watched hvalid (perform_bind_error (ht _))
      refine ⟨hout ▸ tellsDue_of_not_misled ?_ _, hfollows⟩
      rintro ⟨w, hw, -⟩
      obtain ⟨-, u, hfind, -⟩ := Command.probed?_askEntries.mp hw
      cases (Table.perform_entries hfind s.fresh).symm.trans (ht _)

/-- The session follows the outlook throughout a sequence of explorations, if no name is given
twice, and where nothing miscounts it tells what the outlook says. -/
theorem Follows.run (h : s.Follows M base usable o) (hatt : M.access ≠ .detached)
    {es : List (Exploration α)} (hasked : ∀ e ∈ es, usable e.asked)
    (hnew : ∀ new ∈ es.filterMap Exploration.new?, usable new ∧ o.names new = none)
    (honce : (es.filterMap Exploration.new?).Nodup) :
    (M.Uncounted base →
      (run watched s (es.map Exploration.command)).1.map Report.outcome = (o.run es).1) ∧
    (run watched s (es.map Exploration.command)).2.Follows M base usable (o.run es).2 := by
  induction es generalizing s o with
  | nil => exact ⟨fun _ => rfl, h⟩
  | cons e es ih =>
    obtain ⟨hasked, hasked'⟩ := List.forall_mem_cons.mp hasked
    have hgiven {new : String} (he : e.new? = some new) :
        new ∈ (e :: es).filterMap Exploration.new? :=
      List.mem_filterMap.mpr ⟨e, List.mem_cons_self, he⟩
    obtain ⟨htells, hfollows⟩ := h.step watched hatt hasked fun new he => hnew new (hgiven he)
    -- what is given later is not given now, so its name is still free
    have hrest : ∀ new ∈ es.filterMap Exploration.new?,
        usable new ∧ (o.step e).2.names new = none := by
      intro new hmem
      have hlater : new ∈ (e :: es).filterMap Exploration.new? := by
        obtain ⟨e', he', hnew'⟩ := List.mem_filterMap.mp hmem
        exact List.mem_filterMap.mpr ⟨e', List.mem_cons_of_mem _ he', hnew'⟩
      have hne : e.new? ≠ some new := by
        intro he
        rw [List.filterMap_cons_some he, List.nodup_cons] at honce
        exact honce.1 hmem
      rw [o.names_step hne]
      exact hnew new hlater
    have honce' : (es.filterMap Exploration.new?).Nodup :=
      honce.sublist ((List.sublist_cons_self e es).filterMap _)
    obtain ⟨hall, hlast⟩ := ih hfollows hasked' hrest honce'
    exact ⟨fun hM => congrArg₂ List.cons (htells.quiet (h.not_misled hM hasked)) (hall hM), hlast⟩

end Session

end OrderedBag
