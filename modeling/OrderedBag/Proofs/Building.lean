import OrderedBag.ElementSet
import OrderedBag.EntrySet
import OrderedBag.Proofs.Narrow

/-!
# Views and sets that get a node

A view may get a node when everything that it keeps exists. What an existing view builds once, its
descending view, its sets and the comparator that it remembers, stays what it was.

* `Registry.enroll_spec` — a supported view gets a node, and exists from then on
* `View.reversed_up`, `View.reversed_down` — reversing builds or finds the descending view, or gives
  back the view behind
* `View.comparator_spec` — the comparator of a view is its order, remembered or not
* `View.elementSet_gives`, `View.entrySet_gives` — the sets of a view refer to it weakly
-/

namespace OrderedBag

open OrderedBag.Action

variable {α : Type}

/-! ## Nodes for views -/

namespace Registry

variable {reg reg' : Registry α} {v : View α}

/-- The view exists, or it has no node and everything that it would keep exists. -/
def Supports (reg : Registry α) : View α → Prop
  | .source s => reg.Live (.source s)
  | .range none s _ => reg.Live (.source s) ∧ s.access ≠ .detached
  | .range (some i) s r => reg.Live (.range (some i) s r)
  | .descending none .strong f => reg.Supports f
  | .descending none .weak _ => False
  | .descending (some i) link f => reg.Live (.descending (some i) link f)

theorem Live.node?_ne_none (h : reg.Live v) : v.node? ≠ none := by
  obtain ⟨i, hi, -⟩ := h.index
  simp [hi]

theorem Live.supports (h : reg.Live v) : reg.Supports v := by
  have hnode := h.node?_ne_none
  cases v with
  | source s => exact h
  | range n s r =>
    cases n with
    | none => exact absurd rfl hnode
    | some i => exact h
  | descending n link f =>
    cases n with
    | none => exact absurd rfl hnode
    | some i => cases link <;> exact h

theorem Supports.moves (h : reg.Supports v) (hm : reg.Moves reg') : reg'.Supports v := by
  induction v with
  | source s => exact Live.moves h hm
  | range n s r =>
    cases n with
    | none => exact ⟨h.1.moves hm, h.2⟩
    | some i => exact Live.moves h hm
  | descending n link f ih =>
    cases n with
    | none =>
      cases link with
      | strong => exact ih h
      | weak => exact h.elim
    | some i => cases link <;> exact Live.moves h hm

/-- A supported view gets a node, and exists from then on. -/
theorem enroll_spec (h : reg.Supports v) :
    reg.Moves (reg.enroll v).2 ∧ (reg.enroll v).2.Live (reg.enroll v).1 := by
  induction v with
  | source s => exact ⟨.refl, h⟩
  | range n s r =>
    cases n with
    | some i => exact ⟨.refl, h⟩
    | none => exact ⟨.single (.narrowed r h.1 h.2), live_push rfl⟩
  | descending n link f ih =>
    cases n with
    | some i => cases link <;> exact ⟨.refl, h⟩
    | none =>
      cases link with
      | weak => exact h.elim
      | strong =>
        obtain ⟨hm, hlive⟩ := ih h
        exact ⟨hm.tail (.turned hlive), live_push rfl⟩

@[simp] theorem root_enroll (reg : Registry α) (v : View α) : (reg.enroll v).1.root = v.root := by
  induction v with
  | source s => rfl
  | range n s r => cases n <;> rfl
  | descending n link f ih =>
    cases n with
    | some i => rfl
    | none => exact ih

@[simp] theorem facing_enroll (reg : Registry α) (v : View α) :
    (reg.enroll v).1.facing = v.facing := by
  induction v with
  | source s => rfl
  | range n s r => cases n <;> rfl
  | descending n link f ih =>
    cases n with
    | some i => rfl
    | none => exact congrArg Direction.flip ih

@[simp] theorem admits_enroll (reg : Registry α) (v : View α) :
    (reg.enroll v).1.admits = v.admits := by
  induction v with
  | source s => rfl
  | range n s r => cases n <;> rfl
  | descending n link f ih =>
    cases n with
    | some i => rfl
    | none => exact ih

theorem enroll_descending {f : View α} (h : reg.Houses f) (link : Link) :
    reg.enroll (.descending none link f) =
      (.descending (some reg.nodes.size) link f,
        reg.push (.descending (some reg.nodes.size) link f)) := by
  rw [enroll, enroll_of_houses h]
  rfl

/-- A range is a range of a source that its views can reach. -/
theorem Houses.attached (hw : reg.WellFormed) {n : Option NodeId} {s : Source α} {r : Interval α}
    (h : reg.Houses (.range n s r)) : s.access ≠ .detached := by
  obtain ⟨m, hm⟩ := h
  obtain ⟨i, -, hnode⟩ := hm.index
  exact (hw i m hnode).attached n s r hm.view

/-- A narrowed view is supported, if the view exists, its references can be followed and its source
can be reached. -/
theorem Live.supports_narrowed (hs : reg.Sound) (h : reg.Live v) (hreach : reg.canReach v = true)
    (hattached : v.attached = .ok ()) (q : Interval α) : reg.Supports (v.narrowed q) := by
  induction v generalizing q with
  | source s =>
    refine ⟨h, fun hdetached => ?_⟩
    rw [View.attached, if_pos hdetached] at hattached
    cases hattached
  | range n s r => exact ⟨h.source hs, h.1.attached hs.wellFormed⟩
  | descending n link f ih =>
    cases link with
    | strong => exact ih (h.forward hs) hreach hattached q.reverse
    | weak =>
      rw [canReach, Bool.and_eq_true, canUpgrade, Bool.and_eq_true] at hreach
      exact ih ⟨h.1.base hs.wellFormed rfl, hreach.1.1⟩ hreach.2 hattached q.reverse

/-- What an existing view has built exists. -/
theorem Live.reversal (hs : reg.Sound) (h : reg.Live v) {n : Node α} {d : View α}
    (hn : reg.Has v n) (hd : n.reversal = some d) : reg.Live d := by
  obtain ⟨i, hi, hnode⟩ := hn.index
  obtain ⟨hhouses, -, j, rfl⟩ := hn.reversal_eq hs.wellFormed hd
  obtain ⟨m, hm⟩ := hhouses
  obtain ⟨k, hk, -⟩ := hm.index
  refine live_of_index ⟨m, hm⟩ hk (hs.closed i n hnode ?_ k ?_)
  · rw [← isAlive_eq hnode, isAlive_of_live h hi]
  · exact List.mem_append_right _ (by simp [hd, hk])

end Registry

/-! ## Reversing -/

namespace View

variable {reg : Registry α} {v : View α}

/-- A view with a node stays as it is. -/
theorem perform_enroll (hv : reg.Houses v) :
    (Action.updating fun reg => reg.enroll v).perform reg = (.ok v, reg) := by
  rw [perform_updating, Registry.enroll_of_houses hv]

/-- Reversing a descending view gives back the view behind it. -/
theorem reversed_down (n : Option NodeId) (link : Link) (f : View α) (reg : Registry α) :
    (descending n link f).reversed.perform reg = ((reg.follow link f).map fun _ => f, reg) := by
  have hlink := perform_follow link f reg
  unfold reversed
  cases hf : reg.follow link f with
  | error e =>
    rw [hf] at hlink
    rw [perform_bind_error hlink]
    rfl
  | ok _ =>
    rw [hf] at hlink
    rw [perform_bind_ok hlink]
    rfl

/-- The descending view gets a node, and the view registers it. -/
theorem perform_buildReversal (hv : reg.Houses v) :
    v.buildReversal.perform reg = (.ok (.descending (some reg.nodes.size) .weak v),
      ((reg.record .descendingView).push (.descending (some reg.nodes.size) .weak v)).updateNode v
        fun n => { n with reversal := some (.descending (some reg.nodes.size) .weak v) }) := by
  obtain ⟨n, hn⟩ := hv
  have hv' : (reg.record .descendingView).Houses v := ⟨n, hn.found, hn.view⟩
  have henroll : (Action.updating fun reg => reg.enroll (descending none .weak v)).perform
      (reg.record .descendingView) = (.ok (.descending (some reg.nodes.size) .weak v),
        (reg.record .descendingView).push (.descending (some reg.nodes.size) .weak v)) := by
    rw [perform_updating, Registry.enroll_descending hv']
    rfl
  unfold buildReversal
  rw [perform_bind_ok (perform_record _ _), perform_bind_ok henroll,
    perform_bind_ok (perform_modify _ _), perform_pure]

/-- A view which is not descending builds its descending view, and knows it from then on. -/
theorem buildReversal_spec (hup : v.isDescending = false) {n : Node α} (hn : reg.Has v n)
    (hnone : n.reversal = none) :
    ∃ j reg', v.buildReversal.perform reg = (.ok (.descending j .weak v), reg') ∧
      reg.Moves reg' ∧ reg'.contents = reg.contents ∧ reg'.Live (.descending j .weak v) := by
  have hn' : (reg.record .descendingView).Has v n := ⟨hn.found, hn.view⟩
  obtain ⟨d, hd⟩ : ∃ d, d = descending (some reg.nodes.size) .weak v := ⟨_, rfl⟩
  refine ⟨some reg.nodes.size, ((reg.record .descendingView).push d).updateNode v
    fun m => { m with reversal := some d }, ?_, ?_, ?_, ?_⟩
  · rw [perform_buildReversal ⟨n, hn⟩, hd]
  · exact (Relation.ReflTransGen.single (.aside rfl rfl rfl)).tail (.reversed hn' hup hnone hd)
  · exact Registry.contents_updateNode _ _ _
  · have hlive : ((reg.record .descendingView).push d).Live d :=
      Registry.live_push (by rw [hd]; rfl)
    rw [← hd]
    refine hlive.grow (Registry.grows_updateNode (hn'.push d) rfl ?_) ?_
    · intro d' hd'
      simp [hnone] at hd'
    · intro i hi
      rw [Registry.isAlive_updateNode (hn'.push d) rfl]
      exact hi

theorem reversed_of_up (hup : v.isDescending = false) :
    v.reversed = (do
      let v ← Action.updating fun reg => reg.enroll v
      let reg ← get
      match (reg.nodeOf? v).bind Node.reversal with
      | some d => return d
      | none => v.buildReversal) := by
  cases v with
  | source s => rfl
  | range n s r => rfl
  | descending n link f => simp [isDescending] at hup

/-- Any other view has its descending view built once. -/
theorem reversed_up (hs : reg.Sound) (hv : reg.Live v) (hup : v.isDescending = false) :
    ∃ j reg', v.reversed.perform reg = (.ok (.descending j .weak v), reg') ∧ reg.Moves reg' ∧
      reg'.contents = reg.contents ∧ reg'.Live (.descending j .weak v) := by
  obtain ⟨n, hn⟩ := hv.1
  rw [reversed_of_up hup, perform_bind_ok (perform_enroll hv.1), perform_bind_ok (perform_get reg),
    hn.found]
  cases hslot : n.reversal with
  | some d =>
    obtain ⟨-, -, j, hd⟩ := hn.reversal_eq hs.wellFormed hslot
    subst hd
    refine ⟨j, reg, ?_, .refl, rfl, hv.reversal hs hn hslot⟩
    simp only [Option.bind_some, hslot, perform_pure]
  | none =>
    simp only [Option.bind_some, hslot]
    exact buildReversal_spec hup hn hslot

/-! ## Comparators -/

/-- Computes the comparator of a descending view, and remembers it. -/
def computeComparator (n : Option NodeId) (link : Link) (f : View α) : Action α (Comparator α) := do
  Action.follow link f
  let c ← f.comparator
  let c := c.reversed
  modify fun reg => reg.updateNode (descending n link f) fun m => { m with comparator := some c }
  return c

theorem comparator_descending (n : Option NodeId) (link : Link) (f : View α) :
    (descending n link f).comparator = (do
      let reg ← get
      match (reg.nodeOf? (descending n link f)).bind Node.comparator with
      | some c => return c
      | none => computeComparator n link f) := rfl

/-- What is computed is the order of the view, if its references can be followed. -/
theorem computeComparator_spec {n : Option NodeId} {link : Link} {f : View α}
    (hv : reg.Houses (descending n link f))
    (hf : f.comparator.Gives reg (.ok f.order) reg.contents ∨
      reg.canReach f = false ∧ f.comparator.Gives reg (.error .ownerDropped) reg.contents) :
    (computeComparator n link f).Gives reg (.ok f.order.reversed) reg.contents ∨
      reg.canReach (descending n link f) = false ∧
        (computeComparator n link f).Gives reg (.error .ownerDropped) reg.contents := by
  have hlink := perform_follow link f reg
  have hreach := reg.reach_descending n link f
  unfold Registry.reach at hreach
  unfold computeComparator
  cases hfollow : reg.follow link f with
  | error e =>
    rw [hfollow] at hlink hreach
    right
    cases hcan : reg.canReach (descending n link f) with
    | true => rw [if_pos hcan] at hreach; cases hreach
    | false =>
      rw [hcan] at hreach
      obtain rfl : Failure.ownerDropped = e := Except.error.inj hreach
      exact ⟨rfl, reg, perform_bind_error hlink, .refl, rfl⟩
  | ok _ =>
    rw [hfollow] at hlink hreach
    -- the view behind may still fail on a reference further down
    rcases hf with hf | ⟨hcan, hf⟩
    · left
      refine Gives.after hlink (hf.bind_ok fun reg' hm hk => ?_)
      obtain ⟨k, hk'⟩ := hv.moves hm
      refine ⟨_, rfl, .single (.annotated _ hk' rfl rfl rfl ?_), ?_⟩
      · rintro c ⟨⟩
        exact .inr rfl
      · exact (Registry.contents_updateNode _ _ _).trans hk
    · right
      refine ⟨?_, Gives.after hlink hf.bind_error⟩
      cases link with
      | strong => exact hcan
      | weak => rw [Registry.canReach, hcan, Bool.and_false]

/-- A descending view answers the reverse of the order behind it, from memory if it was asked
before. -/
theorem comparator_spec (hs : reg.Sound) (hv : reg.Houses v) :
    v.comparator.Gives reg (.ok v.order) reg.contents ∨
      reg.canReach v = false ∧ v.comparator.Gives reg (.error .ownerDropped) reg.contents := by
  induction v with
  | source s => exact .inl (answers_pure _).gives
  | range n s r => exact .inl (answers_pure _).gives
  | descending n link f ih =>
    obtain ⟨m, hm⟩ := hv
    obtain ⟨i, -, hnode⟩ := hm.index
    have hmemo := (hs.wellFormed i m hnode).comparator
    have hcompute := computeComparator_spec ⟨m, hm⟩
      (ih (Registry.Houses.base hs.wellFormed ⟨m, hm⟩ rfl))
    have hask {o : Except Failure (Comparator α)}
        (h : (match m.comparator with
          | some c => return c
          | none => computeComparator n link f : Action α (Comparator α)).Gives reg o
            reg.contents) :
        (descending n link f).comparator.Gives reg o reg.contents := by
      rw [comparator_descending]
      refine Gives.after (perform_get reg) ?_
      rw [hm.found]
      exact h
    cases hc : m.comparator with
    | some c =>
      -- what is remembered was the order when it was computed, and the order never changes
      have horder := hmemo c hc
      rw [hm.view] at horder
      rw [hc, horder] at hask
      exact .inl (hask (answers_pure _).gives)
    | none =>
      rw [hc] at hask
      exact hcompute.imp hask (And.imp_right hask)

theorem comparator_gives (hs : reg.Sound) (hv : reg.Houses v) (hreach : reg.canReach v = true) :
    v.comparator.Gives reg (.ok v.order) reg.contents := by
  rcases comparator_spec hs hv with h | ⟨hnot, -⟩
  · exact h
  · simp [hreach] at hnot

/-! ## Sets -/

/-- Asking for the element set builds it when the node has none yet. -/
theorem perform_elementSet {n : Node α} (hn : reg.Has v n) :
    v.elementSet.perform reg = (.ok ⟨.weak, v⟩,
      if n.hasElementSet then reg
      else (reg.record .elementSet).updateNode v fun m => { m with hasElementSet := true }) := by
  unfold elementSet
  rw [perform_bind_ok (perform_enroll ⟨n, hn⟩), perform_bind_ok (perform_get reg), hn.found,
    Option.any_some]
  cases n.hasElementSet <;> rfl

/-- Asking for the entry set builds it when the node has none yet. -/
theorem perform_entrySet {n : Node α} (hn : reg.Has v n) :
    v.entrySet.perform reg = (.ok ⟨v⟩,
      if n.hasEntrySet then reg
      else (reg.record .entrySet).updateNode v fun m => { m with hasEntrySet := true }) := by
  unfold entrySet
  rw [perform_bind_ok (perform_enroll ⟨n, hn⟩), perform_bind_ok (perform_get reg), hn.found,
    Option.any_some]
  cases n.hasEntrySet <;> rfl

/-- The registry in which a view remembers a set it has just built. -/
theorem moves_built (hv : reg.Houses v) (r : Record) (f : Node α → Node α)
    (hview : ∀ n, (f n).view = n.view) (halive : ∀ n, (f n).alive = n.alive)
    (hrev : ∀ n, (f n).reversal = n.reversal) (hcomp : ∀ n, (f n).comparator = n.comparator) :
    reg.Moves ((reg.record r).updateNode v f) := by
  have hm : reg.Moves (reg.record r) := reg.moves_withLog _
  obtain ⟨n, hn⟩ := Registry.Houses.moves hv hm
  refine hm.trans (.single (.annotated f hn (hview n) (halive n) (hrev n) ?_))
  intro c hc
  exact .inl ((hcomp n).symm.trans hc)

/-- The element set of a view refers to it weakly, whether it is built now or was before. -/
theorem elementSet_gives (hv : reg.Houses v) :
    v.elementSet.Gives reg (.ok ⟨.weak, v⟩) reg.contents := by
  obtain ⟨n, hn⟩ := hv
  refine ⟨_, perform_elementSet hn, ?_, ?_⟩
  · split
    · exact .refl
    · exact moves_built ⟨n, hn⟩ .elementSet _ (fun _ => rfl) (fun _ => rfl) (fun _ => rfl)
        (fun _ => rfl)
  · split
    · rfl
    · exact Registry.contents_updateNode _ _ _

/-- The entry set of a view refers to it weakly, whether it is built now or was before. -/
theorem entrySet_gives (hv : reg.Houses v) :
    v.entrySet.Gives reg (.ok ⟨v⟩) reg.contents := by
  obtain ⟨n, hn⟩ := hv
  refine ⟨_, perform_entrySet hn, ?_, ?_⟩
  · split
    · exact .refl
    · exact moves_built ⟨n, hn⟩ .entrySet _ (fun _ => rfl) (fun _ => rfl) (fun _ => rfl)
        (fun _ => rfl)
  · split
    · rfl
    · exact Registry.contents_updateNode _ _ _

end View

end OrderedBag
