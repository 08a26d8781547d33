import OrderedBag.Proofs.Confinement
import OrderedBag.Proofs.Lifetimes
import OrderedBag.Proofs.Mirror
import OrderedBag.Proofs.Origins

/-!
# Ranges do not stack

A range of a range is a range of the source, as narrow as both of them together. It keeps the source
alive and nothing else of what was there before, so the range that it was asked of may go without
being missed, and goes no later than it would have gone anyway.

* `Registry.Reaches.rangeNode?` — a view keeps no range alive but the one that it shows itself
* `Reachable.isAlive_drops_of_not_reaches` — dropping handles that do not lead to a view leaves it
* `Session.Narrowed` — one view was made by narrowing another one
* `Session.ranges_stay_flat` — what ranges are, and what a range of a range depends on
-/

namespace OrderedBag

open Relation

variable {α : Type}

/-! ## The range that a view shows -/

namespace View

variable {reg : Registry α} {v : View α}

/-- The number of the range that the view shows, maybe backwards. -/
def rangeNode? : View α → Option NodeId
  | source _ => none
  | range n _ _ => n
  | descending _ _ f => f.rangeNode?

theorem IsRange.rangeNode? (hw : reg.WellFormed) (hv : reg.Houses v) (h : v.IsRange) :
    ∃ k < reg.nodes.size, v.rangeNode? = some k := by
  induction v with
  | source s => exact h.elim
  | range n s r =>
    obtain ⟨m, hm⟩ := hv
    obtain ⟨k, hk, hnode⟩ := hm.index
    exact ⟨k, Registry.lt_size_of_node hnode, hk⟩
  | descending n link f ih => exact ih (hv.base hw rfl) h

/-- Narrowing a view makes a new range. -/
theorem rangeNode?_enroll_narrowed (reg : Registry α) (v : View α) (q : Interval α) :
    (reg.enroll (v.narrowed q)).1.rangeNode? = some reg.nodes.size := by
  induction v generalizing q with
  | source s => rfl
  | range n s r => rfl
  | descending n link f ih => exact ih q.reverse

theorem backed_of_firstWeak? (h : v.firstWeak? = none) (held : List NodeId) : v.Backed held := by
  induction v with
  | source s => trivial
  | range n s r => trivial
  | descending n link f ih =>
    cases link with
    | strong => exact ih h
    | weak => cases h

end View

namespace Registry

variable {reg : Registry α} {v w : View α} {i j : NodeId}

/-- A view without weak references keeps its source alive. -/
theorem Live.root_of_firstWeak? (hs : reg.Sound) (h : reg.Live v) (hnone : v.firstWeak? = none) :
    reg.Live (.source v.root) := by
  induction v with
  | source s => exact h
  | range n s r => exact h.source hs
  | descending n link f ih =>
    cases link with
    | strong => exact ih (h.forward hs) hnone
    | weak => cases hnone

/-- What a node keeps alive shows the same range as the view of that node, or none. -/
theorem Keeps.rangeNode? (hw : reg.WellFormed) (h : reg.Keeps i j) {n : Node α}
    (hn : reg.nodes[i]? = some n) :
    ∃ m, reg.nodes[j]? = some m ∧
      (m.view.rangeNode? = n.view.rangeNode? ∨ m.view.rangeNode? = none) := by
  obtain ⟨m, hm, -, hrefers⟩ := h.refers hw hn
  refine ⟨m, hm, ?_⟩
  rcases hrefers with ⟨-, hbase⟩ | hturned
  · cases hview : n.view with
    | source s =>
      rw [hview] at hbase
      cases hbase
    | range k s r =>
      rw [hview] at hbase
      rw [← Option.some.inj hbase]
      exact .inr rfl
    | descending k link f =>
      rw [hview] at hbase
      rw [← Option.some.inj hbase]
      exact .inl rfl
  · rw [hturned]
    exact .inl rfl

/-- Whatever a view keeps alive, directly or through other views, shows the same range as the view,
or none. -/
theorem Reaches.rangeNode? (hw : reg.WellFormed) (hv : reg.Houses v) (hi : v.node? = some i)
    (h : reg.Reaches [i] j) :
    ∃ m, reg.nodes[j]? = some m ∧
      (m.view.rangeNode? = v.rangeNode? ∨ m.view.rangeNode? = none) := by
  obtain ⟨k, hk, hpath⟩ := h
  obtain rfl : k = i := List.mem_singleton.mp hk
  induction hpath with
  | refl =>
    obtain ⟨n, hn⟩ := hv
    exact ⟨n, hn.node_eq hi, .inl (by rw [hn.view])⟩
  | tail _ hkeeps ih =>
    obtain ⟨n, hn, hrange⟩ := ih
    obtain ⟨m, hm, hsame | hnone⟩ := hkeeps.rangeNode? hw hn
    · exact ⟨m, hm, hsame ▸ hrange⟩
    · exact ⟨m, hm, .inr hnone⟩

/-- A view that shows another range does not keep a range alive. -/
theorem not_reaches_of_rangeNode? (hw : reg.WellFormed) (hhouses : reg.Houses v)
    (hv : v.IsRange) (hi : v.node? = some i) (hhouses' : reg.Houses w) (hj : w.node? = some j)
    (hne : v.rangeNode? ≠ w.rangeNode?) : ¬ reg.Reaches [j] i := by
  intro hreaches
  obtain ⟨m, hm, hrange⟩ := hreaches.rangeNode? hw hhouses' hj
  obtain ⟨k, -, hk⟩ := hv.rangeNode? hw hhouses
  obtain ⟨n, hn⟩ := hhouses
  obtain rfl : n = m := Option.some.inj ((hn.node_eq hi).symm.trans hm)
  rw [hn.view] at hrange
  rcases hrange with hsame | hnone
  · exact hne hsame
  · cases hk.symm.trans hnone

/-- All that the node of a range keeps alive is the source and the descending view of the range. -/
theorem keeps_of_range (hw : reg.WellFormed) {b : Source α} {r : Interval α}
    (hr : reg.Houses (.range (some i) b r)) (hj : reg.Keeps i j) :
    j = b.node ∨ reg.Houses (.descending (some j) .weak (.range (some i) b r)) := by
  obtain ⟨n, hn⟩ := hr
  obtain ⟨m, -, hm, hrefers⟩ := hj.refers hw (hn.node_eq rfl)
  rw [hn.view] at hrefers
  rcases hrefers with ⟨hmem, -⟩ | hturned
  · exact .inl (List.mem_singleton.mp hmem)
  · exact .inr (hturned ▸ hm)

end Registry

/-! ## Dropping handles -/

namespace Session

variable [Ord α] [Std.TransOrd α] [Shown α] {s : Session α} {v w : View α} {name : String}

/-- Handles that do not lead to a view are dropped without a consequence for it. -/
theorem Reachable.isAlive_drops_of_not_reaches (hs : s.Reachable) (hv : s.registry.Houses v)
    {i : NodeId} (hi : v.node? = some i) {names : List String}
    (hnames : ∀ name ∈ names, ∀ h k, s.table.find? name = some h → h.held = some k →
      ¬ s.registry.Reaches [k] i) (watched : List String) :
    (Session.run watched s (names.map .drop)).2.registry.isAlive i = s.registry.isAlive i := by
  have hvalid := Command.valid_drops (α := α) names
  cases halive : s.registry.isAlive i with
  | false =>
    obtain ⟨n, hn⟩ := hv
    have hfreed : s.registry.Freed i :=
      ⟨n, hn.node_eq hi, (Registry.isAlive_eq (hn.node_eq hi)).symm.trans halive⟩
    exact (hs.sound.buries_run hvalid watched i hfreed).isAlive_eq_false
  | true =>
    -- the handle that kept the view alive is not among those that were dropped
    obtain ⟨k, hk, hpath⟩ := hs.reaches halive
    obtain ⟨other, h, -, hfind, hheld, -, -⟩ := Table.view_of_mem_held hs.sound.distinct hk
    have hnot : other ∉ names := fun hmem =>
      hnames other hmem h k hfind hheld ⟨k, List.mem_singleton_self k, hpath⟩
    have hstill : (other, h) ∈ (Session.run watched s (names.map .drop)).2.table :=
      Table.mem_of_find? ((find?_drops hnot).trans hfind)
    have hgrows := hs.sound.grows_run hvalid watched
    exact ((hs.drops watched names).isAlive_iff i).mpr
      ⟨k, Table.mem_held hstill hheld, hpath.lift id fun _ _ hkeeps => hkeeps.grow hgrows⟩

/-- An explorer can do the same after any handles were dropped. -/
theorem Explorable.drops {es : List (Exploration α)} (h : s.Explorable name es)
    (watched names : List String) :
    (run watched s (names.map .drop)).2.Explorable name es where
  unused := by
    intro e he x hx
    refine (h.unused e he x hx).imp_right fun hnone => ?_
    by_cases hmem : x ∈ names
    · exact find?_drops_of_mem hmem
    · exact (find?_drops hmem).trans hnone
  once := h.once

/-- An explorer of a range that has no weak references is told the same whatever else is dropped. -/
theorem Reachable.explored_drops (hs : s.Reachable) (hname : s.table.find? name = some (.bag w))
    (hrange : w.IsRange) (hnone : w.firstWeak? = none) (hatt : w.root.access ≠ .detached)
    {es : List (Exploration α)} (he : s.Explorable name es) {names : List String}
    (hnot : name ∉ names) (watched : List String) :
    (Session.run watched (Session.run watched s (names.map .drop)).2
        (es.map Exploration.command)).1.map Report.outcome =
      (Session.run watched s (es.map Exploration.command)).1.map Report.outcome := by
  obtain ⟨path, hderived⟩ := hs.derived hname rfl
  have hmeans := hderived.spec.2.2
  have hdropped := (hs.drops watched names).sound
  have huncounted : w.root.Uncounted path := .inr (hmeans.ranged.mp hrange)
  have hbefore :=
    follows_exploring hs.sound hname hmeans (View.backed_of_firstWeak? hnone _) hatt he
    watched
  have hafter := follows_exploring hdropped ((find?_drops hnot).trans hname) hmeans
    (View.backed_of_firstWeak? hnone _) hatt (he.drops watched names) watched
  rw [hbefore.1 huncounted, hafter.1 huncounted, contents_drops]

/-! ## Narrowed views -/

/-- The view `w` was made at some time by narrowing the view `v`. -/
inductive Narrowed : Session α → View α → View α → Prop
  /-- By the last command. -/
  | now {s : Session α} {v w : View α} {c : Command α} {st : ViewStep α} {watched : List String}
      (hs : s.Reachable) (hmade : s.Makes watched c st v w) (hst : st.Narrows) :
      Narrowed (s.step watched c).2 v w
  /-- Earlier. -/
  | later {s : Session α} {v w : View α} {c : Command α} (h : Narrowed s v w) (hc : c.Valid)
      (watched : List String) : Narrowed (s.step watched c).2 v w

/-- A narrowed view is a range of the same source, keeps it alive, and shows another range. -/
theorem Narrowed.spec (h : s.Narrowed v w) :
    s.Reachable ∧ s.registry.Houses v ∧ s.registry.Houses w ∧ w.root = v.root ∧ w.IsRange ∧
      w.firstWeak? = none ∧ (v.IsRange → v.rangeNode? ≠ w.rangeNode?) := by
  induction h with
  | @now s v w c st watched hs hmade hst =>
    obtain ⟨hv, hhouses, made, reg, hm, hsup, rfl, hnarrow, -⟩ := hmade.spec hs.sound
    obtain rfl := hnarrow hst
    refine ⟨hs.next hmade.valid watched, hv.grow (hs.sound.grows hmade.valid watched), hhouses,
      ?_, (View.isRange_enroll reg _).mpr (View.isRange_narrowed v _), ?_, fun hrange => ?_⟩
    · rw [Registry.root_enroll, View.root_narrowed]
    · rw [View.firstWeak?_enroll hsup, View.firstWeak?_narrowed]
    · -- the new range has a number that no range had before
      have hwell := (hs.sound.registry.moves hm).wellFormed
      obtain ⟨k, hk, hnode⟩ := hrange.rangeNode? hwell (hv.moves hm)
      rw [hnode, View.rangeNode?_enroll_narrowed]
      exact fun heq => Nat.ne_of_lt hk (Option.some.inj heq)
  | later h hc watched ih =>
    obtain ⟨hs, hv, hhouses, hrest⟩ := ih
    have hgrows := hs.sound.grows hc watched
    exact ⟨hs.next hc watched, hv.grow hgrows, hhouses.grow hgrows, hrest⟩

/-! ## Ranges -/

/-- In every reachable session, a range that exists is a range of a source that exists, and keeps
nothing else alive but its own descending view. It goes back to that source by some steps, and
admits exactly the elements that satisfy all bounds of such steps, each read in the order of the
view it was asked on. A range that was made from another range keeps the source alive, and does not
keep the other range alive: that one exists no longer than it would if the new range were dropped,
with everything that it keeps alive. And whatever other handles are dropped, exploring the new range
tells the same as before. -/
theorem ranges_stay_flat (hs : s.Reachable) :
    (∀ n b r, s.registry.Live (.range n b r) →
      s.registry.Live (.source b) ∧
      (∀ i j, n = some i → s.registry.Keeps i j →
        j = b.node ∨ s.registry.Houses (.descending (some j) .weak (.range n b r))) ∧
      (∃ path, Derived b s (.range n b r) path) ∧
      ∀ b' path, Derived b' s (.range n b r) path → b' = b ∧
        ∀ x, r.contains b.comparator x = ViewStep.satisfies b.comparator path x) ∧
    (∀ v w, s.Narrowed v w → v.IsRange →
      w.root = v.root ∧ (s.registry.Live w → s.registry.Live (.source v.root)) ∧
      (∀ i j, v.node? = some i → w.node? = some j →
        ¬ s.registry.Reaches [j] i ∧
        ∀ watched names : List String,
          (∀ name ∈ names, ∀ h k, s.table.find? name = some h → h.held = some k →
            s.registry.Reaches [j] k) →
          (run watched s (names.map .drop)).2.registry.isAlive i = s.registry.isAlive i) ∧
      ∀ name, s.table.find? name = some (.bag w) → ∀ es, s.Explorable name es →
        ∀ watched names : List String, name ∉ names →
          (run watched (run watched s (names.map .drop)).2 (es.map Exploration.command)).1.map
              Report.outcome =
            (run watched s (es.map Exploration.command)).1.map Report.outcome) := by
  have hw := hs.sound.registry.wellFormed
  constructor
  · intro n b r hlive
    refine ⟨hlive.source hs.sound.registry, ?_, hs.derived_of_live hlive rfl, ?_⟩
    · rintro i j rfl hkeeps
      exact Registry.keeps_of_range hw hlive.1 hkeeps
    · intro b' path hderived
      have hmeans := hderived.spec.2.2
      obtain rfl : b = b' := hmeans.root
      exact ⟨rfl, hmeans.admits⟩
  · intro v w hnarrowed hrange
    obtain ⟨-, hv, hhouses, hroot, hnarrowedRange, hnone, hne⟩ := hnarrowed.spec
    refine ⟨hroot, fun hlive => ?_, fun i j hi hj => ?_, ?_⟩
    · rw [← hroot]
      exact hlive.root_of_firstWeak? hs.sound.registry hnone
    · have hnot := Registry.not_reaches_of_rangeNode? hw hv hrange hi hhouses hj (hne hrange)
      refine ⟨hnot, fun watched names hnames => ?_⟩
      refine hs.isAlive_drops_of_not_reaches hv hi (fun name hmem h k hfind hheld => ?_) watched
      exact fun hreaches => hnot ((hnames name hmem h k hfind hheld).trans hreaches)
    · intro name hname es he watched names hnames
      have hatt : w.root.access ≠ .detached := by
        rw [hroot]
        exact View.attached_of_isRange hw hv hrange
      exact hs.explored_drops hname hnarrowedRange hnone hatt he hnames watched

/-- Of the three numbers backwards the ones that come up to three, and of these the ones that come
after five. -/
def threeNested : Session Int :=
  (threeHead.step [] (.bind "x" (.view "v" (.tail ⟨5, .exclusive⟩)))).2

theorem threeNested_reachable : threeNested.Reachable :=
  threeHead_reachable.next (c := .bind "x" (.view "v" (.tail ⟨5, .exclusive⟩))) trivial []

theorem ranges_stay_flat_threeNested :
    ∃ (b : Source Int) (r : Interval Int) (v x : View Int),
      r = ⟨some ⟨3, .inclusive⟩, some ⟨5, .exclusive⟩⟩ ∧
      x = .descending (some 5) .strong (.range (some 4) b r) ∧
      threeNested.Narrowed v x ∧ v.IsRange ∧ v.node? = some 3 ∧
      (∀ e, r.contains b.comparator e = ViewStep.satisfies b.comparator
        [.reversed, .head ⟨3, .inclusive⟩, .tail ⟨5, .exclusive⟩, .reversed] e) ∧
      threeNested.registry.Live (.source b) ∧ ¬ threeNested.registry.Reaches [5] 3 ∧
      (run [] threeNested [.drop "x"]).2.registry.isAlive 3 = true ∧
      (run [] threeNested [.drop "s", .drop "d", .drop "v"]).2.registry.isAlive 3 = false ∧
      (run [] (run [] threeNested [.drop "s", .drop "d", .drop "v"]).2
        [.askBag "x" (.entries .ascending)]).1.map Report.outcome = [.ok (.entries [⟨3, 1⟩])] := by
  let b : Source Int := ⟨0, 0, ⟨0, .natural, false⟩, .indexed⟩
  let d : View Int := .descending (some 1) .weak (.source b)
  let v : View Int := .descending (some 3) .strong (.range (some 2) b (.downTo ⟨3, .inclusive⟩))
  let r : Interval Int := ⟨some ⟨3, .inclusive⟩, some ⟨5, .exclusive⟩⟩
  let x : View Int := .descending (some 5) .strong (.range (some 4) b r)
  have hs : threeNumbers.table.find? "s" = some (.bag (.source b)) := rfl
  have hd : threeReversed.table.find? "d" = some (.bag d) := rfl
  have hv : threeHead.table.find? "v" = some (.bag v) := rfl
  have hx : threeNested.table.find? "x" = some (.bag x) := rfl
  have hturn : threeNumbers.Makes [] (.bind "d" (.view "s" .reversed)) .reversed (.source b) d :=
    .bag hs rfl hd
  have hhead : threeReversed.Makes [] (.bind "v" (.view "d" (.head ⟨3, .inclusive⟩)))
      (.head ⟨3, .inclusive⟩) d v := .bag hd rfl hv
  have htail : threeHead.Makes [] (.bind "x" (.view "v" (.tail ⟨5, .exclusive⟩)))
      (.tail ⟨5, .exclusive⟩) v x := .bag hv rfl hx
  have hroot : Derived b threeNumbers (.source b) [] :=
    .root threeNumbers_reachable (threeNumbers_reachable.sound.live.find? hs).1
  have hpath := (((hroot.step hturn).step hhead).step htail).behind
  have hnarrowed : threeNested.Narrowed v x := .now threeHead_reachable htail trivial
  have hexplorable : threeNested.Explorable "x" [.askBag "x" (.entries .ascending)] :=
    ⟨by simp [Exploration.asked, Exploration.new?], by decide⟩
  obtain ⟨hranges, hnested⟩ := ranges_stay_flat threeNested_reachable
  have hlive : threeNested.registry.Live (.range (some 4) b r) :=
    (threeNested_reachable.sound.live.find? hx).forward threeNested_reachable.sound.registry
  obtain ⟨hsource, -, -, hbounds⟩ := hranges _ _ _ hlive
  obtain ⟨-, -, hfree, htells⟩ := hnested v x hnarrowed trivial
  obtain ⟨hnot, hspared⟩ := hfree 3 5 rfl rfl
  refine ⟨b, r, v, x, rfl, rfl, hnarrowed, trivial, rfl, (hbounds b _ hpath).2, hsource, hnot, ?_,
    by rfl, ?_⟩
  · refine (hspared [] ["x"] fun name hname h k hfind hheld => ?_).trans rfl
    obtain rfl := List.mem_singleton.mp hname
    obtain rfl : h = .bag x := Option.some.inj (hfind.symm.trans hx)
    obtain rfl : 5 = k := Option.some.inj hheld
    exact ⟨5, List.mem_singleton_self 5, .refl⟩
  · exact (htells "x" hx _ hexplorable [] ["s", "d", "v"] (by decide)).trans rfl

end Session

end OrderedBag
