import OrderedBag.Proofs.BrokenViews
import OrderedBag.Proofs.Exploring
import OrderedBag.Proofs.LiveCursors
import OrderedBag.Proofs.OwnedSets

/-!
# Where views come from

Every view that a handle stands for goes back to a source: a step made it from the view of another
handle, a bag or an element set, which goes back to the source by the steps before. The views behind
a descending view go back to the source by the same steps and one more, which turns the order around
again. So there is a sequence of steps for every range that exists, also if it is held by nothing
but a descending view.

* `Session.Makes` — one view was made from another one by a step
* `Session.Derived` — a sequence of steps by which a view goes back to a source
* `Session.Derived.spec` — the view means what such a sequence says
* `Session.Reachable.derived` — the view of every handle has one
* `Session.Reachable.derived_of_live` — so does every view that exists and refers to nothing weakly
-/

namespace OrderedBag

open Relation OrderedBag.Action

variable {α : Type}

/-! ## Handles and their views -/

namespace Table

variable {t : Table α}

theorem find?_of_mem (ht : t.Distinct) {name : String} {h : Handle α} (hmem : (name, h) ∈ t) :
    t.find? name = some h := by
  cases hfind : t.find? name with
  | none =>
    have hne := List.lookup_eq_none_iff.mp hfind _ hmem
    simp at hne
  | some h' => exact congrArg some (ht.eq_of_mem (mem_of_find? hfind) hmem)

/-- What a table holds is the view of a handle. -/
theorem view_of_mem_held (ht : t.Distinct) {i : NodeId} (hi : i ∈ t.held) :
    ∃ name h v, t.find? name = some h ∧ h.held = some i ∧ h.view? = some v ∧
      v.node? = some i := by
  obtain ⟨⟨name, h⟩, hmem, hheld⟩ := List.mem_filterMap.mp hi
  have hfind := find?_of_mem ht hmem
  cases h with
  | bag v => exact ⟨name, _, v, hfind, hheld, rfl, hheld⟩
  | elements u => exact ⟨name, _, u.view, hfind, hheld, rfl, hheld⟩
  | entries u => exact ⟨name, _, u.view, hfind, hheld, rfl, hheld⟩
  | weak v => cases hheld
  | walk w => cases hheld
  | comparator c => cases hheld

/-- The view of a handle has a node. -/
theorem Live.houses_view {reg : Registry α} (ht : t.Live reg) {name : String} {h : Handle α}
    {v : View α} (hname : t.find? name = some h) (hv : h.view? = some v) : reg.Houses v := by
  have hlive := ht.find? hname
  cases h with
  | bag w =>
    obtain rfl : w = v := Option.some.inj hv
    exact hlive.1
  | elements u =>
    obtain rfl : u.view = v := Option.some.inj hv
    exact hlive.1
  | entries u =>
    obtain rfl : u.view = v := Option.some.inj hv
    exact hlive.1
  | weak w =>
    obtain rfl : w = v := Option.some.inj hv
    exact hlive
  | walk w => cases hv
  | comparator c => cases hv

end Table

namespace Session

variable [Ord α] [Std.TransOrd α] [Shown α] {s : Session α} {c : Command α} {v w : View α}
  {watched : List String}

/-- A handle that was made has got the name. -/
theorem made_of_outcome {name : String} {m : Making α} {answer : Answer α}
    (h : (s.step watched (.bind name m)).1.outcome = .ok answer) :
    ∃ made reg, (m.run s.table).perform s.fresh = (.ok made, reg) ∧ answer = .done ∧
      (s.step watched (.bind name m)).2 =
        ⟨s.table.bind name made, reg.release (s.table.bind name made).held⟩ := by
  obtain ⟨t, reg, hp, hafter⟩ := perform_of_outcome h
  have hbind : (Command.bind name m).run s.table =
      m.run s.table >>= fun made => pure (.done, s.table.bind name made) := rfl
  rw [hbind, perform_bind] at hp
  rcases hm : (m.run s.table).perform s.fresh with ⟨_ | made, reg'⟩
  · rw [hm] at hp
    cases hp
  · rw [hm] at hp
    obtain ⟨hpair, rfl⟩ := Prod.mk.inj hp
    obtain ⟨rfl, rfl⟩ := Prod.mk.inj (Except.ok.inj hpair)
    exact ⟨made, reg', rfl, rfl, hafter⟩

/-- What a name stands for after a command it stood for before, or the command has made it. Only
iterators are replaced while they are asked. -/
theorem handle_of_step {name : String} {h : Handle α}
    (hfind : (s.step watched c).2.table.find? name = some h) :
    s.table.find? name = some h ∨ (∃ w, h = .walk w) ∨ ∃ m reg, c = .bind name m ∧
      (m.run s.table).perform s.fresh = (.ok h, reg) ∧
      (s.step watched c).1.outcome = .ok .done := by
  by_cases htarget : c.target? = some name
  · rcases hp : (c.run s.table).perform s.fresh with ⟨_ | ⟨answer, t⟩, reg⟩
    · -- a command that fails leaves the table as it is
      rw [(step_of_error watched hp).2] at hfind
      exact .inl hfind
    · obtain ⟨hout, hafter⟩ := step_of_ok watched hp
      cases c with
      | bind target m =>
        obtain rfl : target = name := Option.some.inj htarget
        obtain ⟨made, reg', hm, rfl, hbound⟩ := made_of_outcome hout
        rw [hbound, Table.find?_bind_self] at hfind
        obtain rfl := Option.some.inj hfind
        exact .inr (.inr ⟨m, reg', rfl, hm, hout⟩)
      | drop target =>
        obtain rfl : target = name := Option.some.inj htarget
        rw [table_drop, Table.find?_erase_self] at hfind
        cases hfind
      | next target n =>
        obtain rfl : target = name := Option.some.inj htarget
        have hwalk : ((Command.next target n).run s.table).Promises fun p =>
            ∃ walk, p.2.find? target = some (.walk walk) :=
          .bind fun walk => .bind fun reg => promises_pure ⟨_, Table.find?_bind_self s.table _ _⟩
        obtain ⟨walk, hnew⟩ := hwalk s.fresh (answer, t) (by rw [hp])
        rw [hafter] at hfind
        exact .inr (.inl ⟨walk, Option.some.inj (hfind.symm.trans hnew)⟩)
      | _ => cases htarget
  · rw [s.find?_step htarget] at hfind
    exact .inl hfind

/-- The view of a handle was there before the command, or it has an origin. -/
theorem Sound.origin_of_step (hs : s.Sound) (hc : c.Valid) {name : String} {h : Handle α}
    (hfind : (s.step watched c).2.table.find? name = some h) (hv : h.view? = some v) :
    s.table.find? name = some h ∨ ∃ m, c = .bind name m ∧
      (s.step watched c).1.outcome = .ok .done ∧ m.Origin s.table h v := by
  rcases handle_of_step hfind with hold | ⟨w, rfl⟩ | ⟨m, reg, rfl, hrun, hdone⟩
  · exact .inl hold
  · cases hv
  · obtain ⟨-, horigin⟩ := (Making.run_ends hs.fresh hs.live_fresh hc).2 h (by rw [hrun])
    exact .inr ⟨m, rfl, hdone, horigin v hv⟩

/-! ## Steps -/

/-- The command makes the view `w` from the view `v` by a step, which is asked of a bag or of an
element set. -/
inductive Makes (watched : List String) (s : Session α) :
    Command α → ViewStep α → View α → View α → Prop
  /-- It is asked of a bag. -/
  | bag {name new : String} {st : ViewStep α} {v w : View α}
      (hname : s.table.find? name = some (.bag v))
      (hdone : (s.step watched (.bind new (.view name st))).1.outcome = .ok .done)
      (hnew : (s.step watched (.bind new (.view name st))).2.table.find? new = some (.bag w)) :
      Makes watched s (.bind new (.view name st)) st v w
  /-- It is asked of an element set. -/
  | elements {name new : String} {st : ElementStep α} {u u' : ElementSet α}
      (hname : s.table.find? name = some (.elements u))
      (hdone : (s.step watched (.bind new (.elements name st))).1.outcome = .ok .done)
      (hnew : (s.step watched (.bind new (.elements name st))).2.table.find? new =
        some (.elements u')) :
      Makes watched s (.bind new (.elements name st)) st.onView u.view u'.view

variable {st : ViewStep α}

theorem Makes.valid (h : s.Makes watched c st v w) : c.Valid := by
  cases h <;> trivial

/-- Both views have nodes, and the new one is what the step makes, once that has got its node. -/
theorem Makes.spec (h : s.Makes watched c st v w) (hs : s.Sound) :
    s.registry.Houses v ∧ (s.step watched c).2.registry.Houses w ∧
      ∃ made reg, s.registry.Moves reg ∧ reg.Supports made ∧ w = (reg.enroll made).1 ∧
        (st.Narrows → made = v.narrowed st.interval) ∧
        ∀ b path, v.Means b path → made.Means b (path ++ [st]) := by
  have hlive := (hs.step h.valid watched).live
  cases h with
  | @bag name new _ _ _ hname hdone hnew =>
    refine ⟨(hs.live.find? hname).1, (hlive.find? hnew).1, ?_⟩
    obtain ⟨made, reg, hm, hsup, hmakes, -, htable⟩ := view_of_outcome hs hname hdone
    rw [htable, Table.find?_bind_self] at hnew
    refine ⟨made, reg, hm, hsup, (Handle.bag.inj (Option.some.inj hnew)).symm, fun hst => ?_,
      fun b path hmeans => hmeans.step hmakes⟩
    cases st with
    | head hi => exact hmakes
    | tail lo => exact hmakes
    | sub lo hi => exact hmakes
    | reversed => exact hst.elim
    | itself => exact hst.elim
  | @elements name new st u u' hname hdone hnew =>
    refine ⟨(hs.live.find? hname).1, (hlive.find? hnew).1, ?_⟩
    obtain ⟨made, reg, hm, hsup, hmakes, -, htable⟩ := elements_of_outcome hs hname hdone
    rw [htable, Table.find?_bind_self] at hnew
    obtain rfl := Handle.elements.inj (Option.some.inj hnew)
    refine ⟨made.view, reg, hm, hsup, rfl, fun hst => ?_,
      fun b path hmeans => hmeans.elementStep hmakes⟩
    cases st with
    | head hi => exact congrArg ElementSet.view hmakes
    | tail lo => exact congrArg ElementSet.view hmakes
    | sub lo hi => exact congrArg ElementSet.view hmakes
    | descending => exact hst.elim

/-! ## Sequences of steps -/

/-- A view goes back to the source `b` by a sequence of steps, with any commands before, between and
after them. -/
inductive Derived (b : Source α) : Session α → View α → List (ViewStep α) → Prop
  /-- It is the source. -/
  | root {s : Session α} (hs : s.Reachable) (hb : s.registry.Houses (.source b)) :
      Derived b s (.source b) []
  /-- A further step made it. -/
  | step {s : Session α} {v w : View α} {path : List (ViewStep α)} {c : Command α}
      {st : ViewStep α} {watched : List String} (h : Derived b s v path)
      (hmade : s.Makes watched c st v w) : Derived b (s.step watched c).2 w (path ++ [st])
  /-- It is behind a descending view, which turns it around. -/
  | behind {s : Session α} {n : Option NodeId} {link : Link} {f : View α}
      {path : List (ViewStep α)} (h : Derived b s (.descending n link f) path) :
      Derived b s f (path ++ [.reversed])
  /-- Anything else happens. -/
  | later {s : Session α} {v : View α} {path : List (ViewStep α)} {c : Command α}
      (h : Derived b s v path) (hc : c.Valid) (watched : List String) :
      Derived b (s.step watched c).2 v path

variable {b : Source α} {path : List (ViewStep α)}

/-- A view that goes back to a source by some steps means what the steps say. -/
theorem Derived.spec (h : Derived b s v path) :
    s.Reachable ∧ s.registry.Houses v ∧ v.Means b path := by
  induction h with
  | root hs hb => exact ⟨hs, hb, View.means_source b⟩
  | @step s v w path c st watched h hmade ih =>
    obtain ⟨hs, -, hmeans⟩ := ih
    obtain ⟨-, hhouses, made, reg, -, -, rfl, -, hmade'⟩ := hmade.spec hs.sound
    exact ⟨hs.next hmade.valid watched, hhouses, (hmade' b path hmeans).enroll reg⟩
  | @behind s n link f path h ih =>
    obtain ⟨hs, hhouses, hmeans⟩ := ih
    have hturn : ViewStep.reversed.Makes (.descending n link f) f := .inl ⟨n, link, rfl⟩
    exact ⟨hs, hhouses.base hs.sound.registry.wellFormed rfl, hmeans.step hturn⟩
  | later h hc watched ih =>
    obtain ⟨hs, hhouses, hmeans⟩ := ih
    exact ⟨hs.next hc watched, hhouses.grow (hs.sound.grows hc watched), hmeans⟩

/-- The view of every handle goes back to the source behind it. -/
theorem Reachable.derived (hs : s.Reachable) {name : String} {h : Handle α}
    (hname : s.table.find? name = some h) (hv : h.view? = some v) :
    ∃ path, Derived v.root s v path := by
  induction hs generalizing name h v with
  | initial => cases hname
  | @next s hs c hc watched ih =>
    have hnext := hs.next hc watched
    rcases hs.sound.origin_of_step hc hname hv with hold | ⟨m, rfl, hdone, horigin⟩
    · obtain ⟨path, hpath⟩ := ih hold hv
      exact ⟨path, hpath.later hc watched⟩
    · -- the step that made the view comes after those of the view that it was made from
      have hmore {u : View α} {st : ViewStep α} (hu : ∃ path, Derived u.root s u path)
          (hmade : s.Makes watched (.bind name m) st u v) :
          ∃ path, Derived v.root (s.step watched (.bind name m)).2 v path := by
        obtain ⟨path, hpath⟩ := hu
        have hnew := hpath.step hmade
        have hroot := hnew.spec.2.2.root
        exact ⟨path ++ [st], hroot ▸ hnew⟩
      cases horigin with
      | source b => exact ⟨[], .root hnext (hnext.sound.live.houses_view hname hv)⟩
      | shared hname' hv' =>
        obtain ⟨path, hpath⟩ := ih hname' hv'
        exact ⟨path, hpath.later hc watched⟩
      | view hname' => exact hmore (ih hname' rfl) (.bag hname' hdone hname)
      | elements hname' => exact hmore (ih hname' rfl) (.elements hname' hdone hname)

/-- Every view that exists and refers to nothing weakly goes back to the source behind it: a handle
holds it, or it is the source of a range, or it is behind such a view. -/
theorem Reachable.derived_of_live (hs : s.Reachable) (hl : s.registry.Live v)
    (hstrong : v.isWeak = false) : ∃ path, Derived v.root s v path := by
  have hw := hs.sound.registry.wellFormed
  have hheld {u : View α} {i : NodeId} (hu : s.registry.Houses u) (hi : u.node? = some i)
      (hmem : i ∈ s.table.held) : ∃ path, Derived u.root s u path := by
    obtain ⟨name, h, w, hname, -, hview, hnode⟩ := Table.view_of_mem_held hs.sound.distinct hmem
    have hw := hs.sound.live.houses_view hname hview
    obtain rfl : w = u := Registry.houses_unique hw hu (hnode.trans hi.symm)
    exact hs.derived hname hview
  obtain ⟨i, hi, halive⟩ := hl.index
  obtain ⟨k, hk, hpath⟩ := hs.reaches halive
  -- along the path from what is held, every strong reference is that of a range or a turned view
  have hhouses := hl.1
  clear hl halive
  induction hpath generalizing v with
  | refl => exact hheld hhouses hi hk
  | @tail j i _ hkeeps ih =>
    obtain ⟨n, hn, -⟩ := id hkeeps
    obtain ⟨m, hm, -, hrefers⟩ := hkeeps.refers hw hn
    obtain ⟨m', hm'⟩ := hhouses
    obtain rfl : m = m' := Option.some.inj (hm.symm.trans (hm'.node_eq hi))
    rw [hm'.view] at hrefers
    rcases hrefers with ⟨hmem, hbase⟩ | hturned
    · have hidentity := (hw j n hn).identity
      have hview : s.registry.Houses n.view := ⟨n, Registry.has_of_index hidentity hn rfl⟩
      cases hshape : n.view with
      | source b =>
        rw [hshape] at hbase
        cases hbase
      | range k b r =>
        rw [hshape] at hbase
        obtain rfl : View.source b = v := Option.some.inj hbase
        exact ⟨[], .root hs ⟨m, hm'⟩⟩
      | descending k link f =>
        rw [hshape] at hbase hmem hidentity hview
        obtain rfl : f = v := Option.some.inj hbase
        cases link with
        | weak => exact absurd hmem List.not_mem_nil
        | strong =>
          obtain ⟨path, hpath⟩ := ih rfl hidentity hview
          exact ⟨path ++ [.reversed], Derived.behind (b := f.root) hpath⟩
    · rw [hturned] at hstrong
      cases hstrong

end Session

end OrderedBag
