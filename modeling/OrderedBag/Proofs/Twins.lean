import OrderedBag.Proofs.Frame

/-!
# Twins

Two registries are twins if they differ in three things only: whether a source is indexed or
sequential, what its bag holds outside of a scope, and the log. What is left when one forgets how
sources answer is the core, and every operation on nodes commutes with taking the core. How they
answer matters to the question whether a view is empty, so a scope also says which sources may be
twins.

* `View.core`, `Registry.core` — views and nodes without the way in which their sources answer
* `Registry.canReach_core`, `Registry.enroll_core`, `Registry.core_release` — operations on cores
* `Registry.access?` — how the sources of a registry answer
* `Scope.Agree`, `Registry.Twins` — contents that agree within a scope, and registries that are
  twins
* `View.Shared` — a view that shows nothing outside of the scope
-/

namespace OrderedBag

variable {α : Type}

/-! ## Cores -/

/-- Indexed and sequential sources are not told apart. -/
def Access.core : Access → Access
  | indexed | sequential => indexed
  | copying => copying
  | detached => detached

/-- The source, without the way in which it answers. -/
def Source.core (s : Source α) : Source α :=
  { s with access := s.access.core }

theorem Source.bag_of_core {s s' : Source α} (h : s'.core = s.core) : s'.bag = s.bag := by
  have hbag : s'.core.bag = s.core.bag := congrArg Source.bag h
  exact hbag

theorem Source.comparator_of_core {s s' : Source α} (h : s'.core = s.core) :
    s'.comparator = s.comparator := by
  have hcomp : s'.core.comparator = s.core.comparator := congrArg Source.comparator h
  exact hcomp

namespace View

/-- The view, without the way in which its source answers. -/
def core : View α → View α
  | source s => source s.core
  | range n s r => range n s.core r
  | descending n link f => descending n link f.core

@[simp] theorem node?_core (v : View α) : v.core.node? = v.node? := by
  cases v <;> rfl

@[simp] theorem root_core (v : View α) : v.core.root = v.root.core := by
  induction v with
  | source s => rfl
  | range n s r => rfl
  | descending n link f ih => exact ih

@[simp] theorem facing_core (v : View α) : v.core.facing = v.facing := by
  induction v with
  | source s => rfl
  | range n s r => rfl
  | descending n link f ih => exact congrArg Direction.flip ih

@[simp] theorem order_core (v : View α) : v.core.order = v.order := by
  rw [order_eq, order_eq, root_core, facing_core]
  rfl

@[simp] theorem admits_core (v : View α) : v.core.admits = v.admits := by
  induction v with
  | source s => rfl
  | range n s r => rfl
  | descending n link f ih => exact ih

@[simp] theorem keeps_core (v : View α) : v.core.keeps = v.keeps := by
  cases v with
  | source s => rfl
  | range n s r => rfl
  | descending n link f => cases link <;> simp [core, keeps]

theorem access_core_eq_detached {s : Source α} :
    s.core.access = .detached ↔ s.access = .detached := by
  unfold Source.core
  cases s.access <;> simp [Access.core]

@[simp] theorem isDetached_core (v : View α) : v.core.isDetached = v.isDetached := by
  cases v with
  | source s =>
    rw [Bool.eq_iff_iff]
    simpa [core, isDetached] using access_core_eq_detached
  | range n s r => rfl
  | descending n link f => rfl

@[simp] theorem isDescending_core (v : View α) : v.core.isDescending = v.isDescending := by
  cases v <;> rfl

theorem core_narrowed (v : View α) (q : Interval α) :
    (v.narrowed q).core = v.core.narrowed q := by
  induction v generalizing q with
  | source s => rfl
  | range n s r => rfl
  | descending n link f ih => exact congrArg (descending none .strong) (ih q.reverse)

end View

namespace Node

/-- The node, without the way in which sources answer. -/
def core (n : Node α) : Node α :=
  { n with view := n.view.core, reversal := n.reversal.map View.core }

@[simp] theorem keeps_core (n : Node α) : n.core.keeps = n.keeps := by
  unfold keeps core
  rw [View.keeps_core]
  cases n.reversal <;> simp

end Node

namespace Registry

variable {reg : Registry α} {held : List NodeId}

/-- The nodes of a registry, without the way in which sources answer. -/
def core (reg : Registry α) : Registry α :=
  ⟨#[], reg.nodes.map Node.core, 0, [], reg.arithmetic⟩

theorem node_core (reg : Registry α) (i : NodeId) :
    reg.core.nodes[i]? = reg.nodes[i]?.map Node.core :=
  Array.getElem?_map

@[simp] theorem size_core (reg : Registry α) : reg.core.nodes.size = reg.nodes.size :=
  Array.size_map

@[simp] theorem isAlive_core (reg : Registry α) : reg.core.isAlive = reg.isAlive := by
  funext i
  rw [isAlive, node_core, isAlive]
  cases reg.nodes[i]? <;> rfl

theorem nodeOf?_core (reg : Registry α) (v : View α) :
    reg.core.nodeOf? v.core = (reg.nodeOf? v).map Node.core := by
  rw [nodeOf?, nodeOf?, View.node?_core]
  cases v.node? with
  | none => rfl
  | some i => exact reg.node_core i

@[simp] theorem canUpgrade_core (reg : Registry α) (v : View α) :
    reg.core.canUpgrade v.core = reg.canUpgrade v := by
  simp [canUpgrade]

@[simp] theorem follow_core (reg : Registry α) (link : Link) (v : View α) :
    reg.core.follow link v.core = reg.follow link v := by
  cases link with
  | strong => rfl
  | weak => rw [follow_weak, follow_weak, canUpgrade_core]

@[simp] theorem canReach_core (reg : Registry α) (v : View α) :
    reg.core.canReach v.core = reg.canReach v := by
  induction v with
  | source s => rfl
  | range n s r => rfl
  | descending n link f ih =>
    cases link with
    | strong => exact ih
    | weak => rw [View.core, canReach, canReach, canUpgrade_core, ih]

theorem core_push (reg : Registry α) (v : View α) : (reg.push v).core = reg.core.push v.core := by
  simp [core, push, Node.fresh, Node.core]

theorem enroll_core (reg : Registry α) (v : View α) :
    reg.core.enroll v.core = ((reg.enroll v).1.core, (reg.enroll v).2.core) := by
  induction v with
  | source s => rfl
  | range n s r =>
    cases n with
    | some i => rfl
    | none =>
      have hpush := reg.core_push (.range (some reg.nodes.size) s r)
      rw [View.core, enroll, enroll, size_core]
      exact Prod.ext rfl hpush.symm
  | descending n link f ih =>
    cases n with
    | some i => rfl
    | none =>
      have hpush := (reg.enroll f).2.core_push
        (.descending (some (reg.enroll f).2.nodes.size) link (reg.enroll f).1)
      rw [View.core, enroll, enroll, ih]
      show (View.descending (some (reg.enroll f).2.core.nodes.size) link (reg.enroll f).1.core,
        (reg.enroll f).2.core.push _) = _
      rw [size_core]
      exact Prod.ext rfl hpush.symm

theorem core_updateNode (reg : Registry α) (v : View α) {f f' : Node α → Node α}
    (hf : ∀ n, (f n).core = f' n.core) :
    (reg.updateNode v f).core = reg.core.updateNode v.core f' := by
  unfold updateNode
  rw [View.node?_core]
  cases v.node? with
  | none => rfl
  | some i =>
    refine congrArg (Registry.mk #[] · 0 [] reg.arithmetic) (Array.ext_getElem? fun j => ?_)
    show ((reg.nodes.modify i f).map Node.core)[j]? = ((reg.nodes.map Node.core).modify i f')[j]?
    rw [Array.getElem?_map, Array.getElem?_modify, Array.getElem?_modify, Array.getElem?_map]
    split
    · cases reg.nodes[j]? <;> simp [hf]
    · rfl

/-- A bag that has just been made is as empty as one that has yet to be made. -/
theorem contents_addSource (reg : Registry α) (c : Comparator α) (a : Access) :
    (reg.addSource c a).2.contents = reg.contents := by
  funext b
  unfold contents addSource
  rw [Array.getElem?_push]
  split
  next hb => rw [hb, Array.getElem?_eq_none (Nat.le_refl _)]; rfl
  next => rfl

/-! ## Releasing -/

theorem kept_core (reg : Registry α) (held : List NodeId) :
    reg.core.kept held = reg.kept held := by
  unfold kept core
  simp only [Array.toList_map, List.filter_map, List.flatMap_map, Node.keeps_core]
  rfl

theorem core_sweep (reg : Registry α) (held : List NodeId) :
    (reg.sweep held).core = reg.core.sweep held := by
  refine congrArg (Registry.mk #[] · 0 [] reg.arithmetic) (Array.ext_getElem? fun j => ?_)
  show ((reg.sweep held).core).nodes[j]? = (reg.core.sweep held).nodes[j]?
  rw [node_core, node_sweep, node_sweep, node_core, kept_core]
  cases reg.nodes[j]? <;> rfl

theorem aliveCount_core (reg : Registry α) : reg.core.aliveCount = reg.aliveCount := by
  unfold aliveCount core
  rw [Array.countP_map]
  rfl

theorem core_settle (held : List NodeId) (rounds : Nat) (reg : Registry α) :
    (reg.settle held rounds).core = reg.core.settle held rounds := by
  induction rounds generalizing reg with
  | zero => rfl
  | succ rounds ih =>
    unfold settle
    simp only [← core_sweep, aliveCount_core]
    split
    · rfl
    · exact ih _

theorem core_release (reg : Registry α) (held : List NodeId) :
    (reg.release held).core = reg.core.release held := by
  rw [release, core_settle, release, size_core]

@[simp] theorem bags_release (reg : Registry α) (held : List NodeId) :
    (reg.release held).bags = reg.bags :=
  release_induction (P := fun r => r.bags = reg.bags) (fun _ h => h) rfl

@[simp] theorem evaluations_release (reg : Registry α) (held : List NodeId) :
    (reg.release held).evaluations = reg.evaluations :=
  release_induction (P := fun r => r.evaluations = reg.evaluations) (fun _ h => h) rfl

@[simp] theorem arithmetic_release (reg : Registry α) (held : List NodeId) :
    (reg.release held).arithmetic = reg.arithmetic :=
  release_induction (P := fun r => r.arithmetic = reg.arithmetic) (fun _ h => h) rfl

end Registry

/-! ## How sources answer -/

/-- How the view answers, if it is a source. -/
def View.access? : View α → Option Access
  | source s => some s.access
  | range _ _ _ | descending _ _ _ => none

namespace Registry

/-- How the view with that identity answers, if it is a source. -/
def access? (reg : Registry α) (i : NodeId) : Option Access :=
  reg.nodes[i]?.bind fun n => n.view.access?

theorem Houses.access?_eq {reg : Registry α} {s : Source α} (h : reg.Houses (.source s)) :
    reg.access? s.node = some s.access := by
  obtain ⟨n, hn⟩ := h
  have hfound : reg.nodes[s.node]? = some n := hn.found
  rw [access?, hfound, Option.bind_some, hn.view]
  rfl

theorem access?_push (reg : Registry α) (v : View α) (i : NodeId) :
    (reg.push v).access? i = if i = reg.nodes.size then v.access? else reg.access? i := by
  unfold access? push
  rw [Array.getElem?_push]
  split <;> rfl

/-- No other view is told from a view that does not exist. -/
theorem access?_push_of_none (reg : Registry α) {v : View α} (hv : v.access? = none) :
    (reg.push v).access? = reg.access? := by
  funext i
  rw [access?_push, hv]
  split
  next hi => rw [access?, Array.getElem?_eq_none (Nat.le_of_eq hi.symm)]; rfl
  next => rfl

theorem access?_updateNode (reg : Registry α) (v : View α) {f : Node α → Node α}
    (hf : ∀ n, (f n).view = n.view) : (reg.updateNode v f).access? = reg.access? := by
  unfold updateNode
  split
  next j _ =>
    funext i
    unfold access?
    rw [Array.getElem?_modify]
    split
    · cases reg.nodes[i]? <;> simp [hf]
    · rfl
  next => rfl

theorem access?_enroll (reg : Registry α) (v : View α) :
    (reg.enroll v).2.access? = reg.access? := by
  induction v with
  | source s => rfl
  | range n s r =>
    cases n with
    | some i => rfl
    | none => exact reg.access?_push_of_none rfl
  | descending n link f ih =>
    cases n with
    | some i => rfl
    | none => exact ((reg.enroll f).2.access?_push_of_none rfl).trans ih

theorem access?_release (reg : Registry α) (held : List NodeId) :
    (reg.release held).access? = reg.access? := by
  refine release_induction (P := fun r => r.access? = reg.access?) (fun r hr => ?_) rfl
  rw [← hr]
  funext i
  unfold access?
  rw [node_sweep]
  cases r.nodes[i]? <;> rfl

end Registry

/-! ## Contents that agree within a scope -/

/-- What is looked at, and where. -/
structure Scope (α : Type) where
  /-- Which elements of each bag are looked at. -/
  looksAt : BagId → α → Bool
  /-- In which ways the source behind may answer, and in which way its twin. -/
  alike : Access → Access → Prop
  alike_refl : ∀ a, alike a a
  alike_core : ∀ {a a'}, alike a a' → a'.core = a.core
  /-- The twin keeps a running total only if the source does. -/
  alike_indexed : ∀ {a}, alike a .indexed → a = .indexed

instance : CoeFun (Scope α) fun _ => BagId → α → Bool :=
  ⟨Scope.looksAt⟩

/-- Twins answer in the same way. -/
def Scope.Exact (S : Scope α) : Prop :=
  ∀ a a', S.alike a a' → a' = a

/-- The entries within the scope are the same. A bag of which nothing lies outside is the same. -/
structure Scope.Agree (S : Scope α) (k k' : BagId → Histogram α) : Prop where
  whole : ∀ b, (∀ x, S b x = true) → k' b = k b
  part : ∀ b, ((k' b).entries.filter fun e => S b e.element) =
    (k b).entries.filter fun e => S b e.element

/-- The view can be reached from its views, and shows nothing outside of the scope. -/
structure View.Shared (S : Scope α) (v : View α) : Prop where
  attached : v.root.access ≠ .detached
  inside : ∀ x, v.admits x = true → S v.root.bag x = true

section

variable {S : Scope α} {k k' : BagId → Histogram α} {v w : View α}

theorem Scope.Agree.refl (S : Scope α) (k : BagId → Histogram α) : S.Agree k k :=
  ⟨fun _ _ => rfl, fun _ => rfl⟩

namespace View

theorem root_of_core (h : w.core = v.core) : w.root.core = v.root.core := by
  rw [← root_core, h, root_core]

theorem bag_of_core (h : w.core = v.core) : w.root.bag = v.root.bag :=
  Source.bag_of_core (root_of_core h)

theorem comparator_of_core (h : w.core = v.core) : w.root.comparator = v.root.comparator :=
  Source.comparator_of_core (root_of_core h)

theorem order_of_core (h : w.core = v.core) : w.order = v.order := by
  rw [← order_core, h, order_core]

theorem node?_of_core (h : w.core = v.core) : w.node? = v.node? := by
  rw [← node?_core, h, node?_core]

namespace Shared

theorem of_core (hv : v.Shared S) (h : w.core = v.core) : w.Shared S where
  attached hw := by
    have hcore := access_core_eq_detached.mpr hw
    rw [root_of_core h] at hcore
    exact hv.attached (access_core_eq_detached.mp hcore)
  inside x hx := by
    rw [← admits_core, h, admits_core] at hx
    rw [bag_of_core h]
    exact hv.inside x hx

/-- What such a view shows is the same in both contents. -/
theorem listing_eq (hv : v.Shared S) (hk : S.Agree k k') (h : w.core = v.core) :
    w.listing k' = v.listing k := by
  have hwithin (es : List (Entry α)) : (es.filter fun e => v.admits e.element) =
      (es.filter fun e => S v.root.bag e.element).filter fun e => v.admits e.element := by
    rw [List.filter_filter]
    refine List.filter_congr fun e _ => ?_
    cases he : v.admits e.element with
    | false => rfl
    | true => rw [hv.inside _ he]; rfl
  have hadmits : w.admits = v.admits := by rw [← admits_core, h, admits_core]
  have hfacing : w.facing = v.facing := by rw [← facing_core, h, facing_core]
  rw [View.listing_eq, View.listing_eq, bag_of_core h, hadmits, hfacing, hwithin, hk.part,
    ← hwithin]

theorem narrowed (hv : v.Shared S) (q : Interval α) : (v.narrowed q).Shared S where
  attached := by
    rw [root_narrowed]
    exact hv.attached
  inside x hx := by
    rw [admits_narrowed, Bool.and_eq_true] at hx
    rw [root_narrowed]
    exact hv.inside x hx.1

theorem forward {n : Option NodeId} {link : Link} (hv : (descending n link v).Shared S) :
    v.Shared S :=
  ⟨hv.attached, hv.inside⟩

theorem turned (hv : v.Shared S) (n : Option NodeId) (link : Link) :
    (descending n link v).Shared S :=
  ⟨hv.attached, hv.inside⟩

theorem enroll (hv : v.Shared S) (reg : Registry α) : (reg.enroll v).1.Shared S where
  attached := by
    rw [Registry.root_enroll]
    exact hv.attached
  inside := by
    rw [Registry.root_enroll, Registry.admits_enroll]
    exact hv.inside

end Shared

end View

/-- When the same entry goes on both sides, the contents still agree. -/
theorem Scope.Agree.without (hk : S.Agree k k') (h : w.core = v.core)
    (hv : (k v.root.bag).Valid v.root.comparator) (hv' : (k' w.root.bag).Valid w.root.comparator)
    (e? : Option (Entry α)) : S.Agree (v.without k e?) (w.without k' e?) := by
  cases e? with
  | none => exact hk
  | some e =>
    have hcomp := View.comparator_of_core h
    rw [View.bag_of_core h, hcomp] at hv'
    refine ⟨fun b hb => ?_, fun b => ?_⟩
    · simp only [View.without, View.bag_of_core h, hcomp, hk.whole b hb]
    · simp only [View.without, View.bag_of_core h, hcomp]
      split
      next heq =>
        subst heq
        -- to look at the scope and to remove an entry are filters, which commute
        rw [hv'.entries_erase, hv.entries_erase, List.filter_filter, List.filter_filter]
        simp only [Bool.and_comm (S _ _)]
        rw [← List.filter_filter, ← List.filter_filter, hk.part]
      next => exact hk.part b

end

namespace Registry

/-- Registries that differ in three things only: whether sources are indexed or sequential, what
lies outside of the scope, and the log. Totals wrap around in both. -/
structure Twins (S : Scope α) (reg reg' : Registry α) : Prop where
  core : reg'.core = reg.core
  bags : reg'.bags.size = reg.bags.size
  evaluations : reg'.evaluations = reg.evaluations
  contents : S.Agree reg.contents reg'.contents
  wrapping : reg.arithmetic = .wrapping
  access : ∀ i a a', reg.access? i = some a → reg'.access? i = some a' → S.alike a a'

namespace Twins

variable {S : Scope α} {reg reg' : Registry α} {v w : View α}

theorem refl (S : Scope α) {reg : Registry α} (hw : reg.arithmetic = .wrapping) :
    reg.Twins S reg where
  core := rfl
  bags := rfl
  evaluations := rfl
  contents := .refl S _
  wrapping := hw
  access i a a' ha ha' := by
    obtain rfl : a = a' := Option.some.inj (ha.symm.trans ha')
    exact S.alike_refl a

theorem wrapping' (hr : reg.Twins S reg') : reg'.arithmetic = .wrapping := by
  have harith : reg'.core.arithmetic = reg.core.arithmetic := congrArg Registry.arithmetic hr.core
  exact harith.trans hr.wrapping

theorem size (hr : reg.Twins S reg') : reg'.nodes.size = reg.nodes.size := by
  rw [← size_core, hr.core, size_core]

theorem isAlive (hr : reg.Twins S reg') : reg'.isAlive = reg.isAlive := by
  rw [← isAlive_core, hr.core, isAlive_core]

theorem follow (hr : reg.Twins S reg') (link : Link) (h : w.core = v.core) :
    reg'.follow link w = reg.follow link v := by
  rw [← follow_core, hr.core, h, follow_core]

theorem canReach (hr : reg.Twins S reg') (h : w.core = v.core) :
    reg'.canReach w = reg.canReach v := by
  rw [← canReach_core, hr.core, h, canReach_core]

theorem nodeOf? (hr : reg.Twins S reg') (h : w.core = v.core) :
    (reg'.nodeOf? w).map Node.core = (reg.nodeOf? v).map Node.core := by
  rw [← nodeOf?_core, hr.core, h, nodeOf?_core]

/-- Nothing is done to the nodes. -/
theorem of_contents {reg₁ reg₁' : Registry α} (hr : reg.Twins S reg')
    (hnodes : reg₁.nodes = reg.nodes) (hnodes' : reg₁'.nodes = reg'.nodes)
    (hbags : reg₁.bags.size = reg.bags.size) (hbags' : reg₁'.bags.size = reg'.bags.size)
    (hevals : reg₁.evaluations = reg.evaluations) (hevals' : reg₁'.evaluations = reg'.evaluations)
    (harith : reg₁.arithmetic = reg.arithmetic) (harith' : reg₁'.arithmetic = reg'.arithmetic)
    (hk : S.Agree reg₁.contents reg₁'.contents) : reg₁.Twins S reg₁' where
  core := by
    have hcore := hr.core
    unfold Registry.core at hcore ⊢
    rw [hnodes, hnodes', harith, harith', hcore]
  bags := by rw [hbags, hbags', hr.bags]
  evaluations := by rw [hevals, hevals', hr.evaluations]
  contents := hk
  wrapping := harith.trans hr.wrapping
  access i a a' ha ha' := by
    unfold access? at ha ha'
    rw [hnodes] at ha
    rw [hnodes'] at ha'
    exact hr.access i a a' ha ha'

theorem withLog (hr : reg.Twins S reg') (l l' : List Record) :
    (reg.withLog l).Twins S (reg'.withLog l') :=
  ⟨hr.core, hr.bags, hr.evaluations, hr.contents, hr.wrapping, hr.access⟩

theorem evaluate (hr : reg.Twins S reg') (o : Order α) :
    (reg'.evaluate o).1 = (reg.evaluate o).1 ∧
      (reg.evaluate o).2.Twins S (reg'.evaluate o).2 := by
  refine ⟨?_, hr.core, hr.bags, congrArg (· + 1) hr.evaluations, hr.contents, hr.wrapping,
    hr.access⟩
  rw [Registry.evaluate, Registry.evaluate, hr.evaluations]

theorem setContents (hr : reg.Twins S reg') (b : BagId) (h : Histogram α) :
    (reg.setContents b h).Twins S (reg'.setContents b h) := by
  refine hr.of_contents rfl rfl (by simp [Registry.setContents]) (by simp [Registry.setContents])
    rfl rfl rfl rfl ⟨fun b' hb' => ?_, fun b' => ?_⟩
  · rw [contents_setContents, contents_setContents, hr.bags, hr.contents.whole b' hb']
  · rw [contents_setContents, contents_setContents, hr.bags]
    split
    · rfl
    · exact hr.contents.part b'

/-- What the nodes remember changes, but not which views have them. -/
theorem updateNode (hr : reg.Twins S reg') (h : w.core = v.core) (f f' : Node α → Node α)
    {g : Node α → Node α} (hf : ∀ n, (f n).core = g n.core) (hf' : ∀ n, (f' n).core = g n.core)
    (hview : ∀ n, (f n).view = n.view) (hview' : ∀ n, (f' n).view = n.view) :
    (reg.updateNode v f).Twins S (reg'.updateNode w f') where
  core := by rw [core_updateNode _ _ hf, core_updateNode _ _ hf', hr.core, h]
  bags := by rw [bags_updateNode, bags_updateNode, hr.bags]
  evaluations := by
    have hkeep (reg : Registry α) (v : View α) (f : Node α → Node α) :
        (reg.updateNode v f).evaluations = reg.evaluations := by
      unfold Registry.updateNode
      split <;> rfl
    rw [hkeep, hkeep, hr.evaluations]
  contents := by
    rw [contents_updateNode, contents_updateNode]
    exact hr.contents
  wrapping := (arithmetic_updateNode reg v f).trans hr.wrapping
  access := by
    rw [access?_updateNode reg v hview, access?_updateNode reg' w hview']
    exact hr.access

theorem enroll (hr : reg.Twins S reg') (h : w.core = v.core) :
    (reg'.enroll w).1.core = (reg.enroll v).1.core ∧
      (reg.enroll v).2.Twins S (reg'.enroll w).2 := by
  have hcores : reg'.core.enroll w.core = reg.core.enroll v.core := by rw [hr.core, h]
  rw [enroll_core, enroll_core] at hcores
  obtain ⟨hview, hcore⟩ := Prod.mk.inj hcores
  -- a view gets a node, and nothing else happens
  have hrest (reg : Registry α) (v : View α) : (reg.enroll v).2.bags = reg.bags ∧
      (reg.enroll v).2.evaluations = reg.evaluations ∧
      (reg.enroll v).2.arithmetic = reg.arithmetic := by
    induction v with
    | source s => exact ⟨rfl, rfl, rfl⟩
    | range n s r => cases n <;> exact ⟨rfl, rfl, rfl⟩
    | descending n link f ih =>
      cases n with
      | some i => exact ⟨rfl, rfl, rfl⟩
      | none => exact ih
  refine ⟨hview, hcore, ?_, ?_, ?_, ?_, ?_⟩
  · rw [(hrest reg v).1, (hrest reg' w).1, hr.bags]
  · rw [(hrest reg v).2.1, (hrest reg' w).2.1, hr.evaluations]
  · rw [contents_enroll, contents_enroll]
    exact hr.contents
  · exact (hrest reg v).2.2.trans hr.wrapping
  · rw [access?_enroll, access?_enroll]
    exact hr.access

theorem addSource (hr : reg.Twins S reg') (c : Comparator α) {a a' : Access}
    (ha : S.alike a a') :
    (reg'.addSource c a').1.core = (reg.addSource c a).1.core ∧
      (reg.addSource c a).2.Twins S (reg'.addSource c a').2 := by
  have hsource : (reg'.addSource c a').1.core = (reg.addSource c a).1.core := by
    unfold Registry.addSource Source.core
    rw [hr.size, hr.bags, S.alike_core ha]
  refine ⟨hsource, ?_, ?_, hr.evaluations, ?_, hr.wrapping, fun i b b' hb hb' => ?_⟩
  · have hview : (View.source (reg'.addSource c a').1).core =
        (View.source (reg.addSource c a).1).core := congrArg View.source hsource
    show (reg'.push (.source _)).core = (reg.push (.source _)).core
    rw [core_push, core_push, hr.core]
    exact congrArg reg.core.push hview
  · simp [Registry.addSource, hr.bags]
  · rw [contents_addSource, contents_addSource]
    exact hr.contents
  · -- the new source is alike, and the others were alike before
    have hb : (reg.push (.source _)).access? i = some b := hb
    have hb' : (reg'.push (.source _)).access? i = some b' := hb'
    rw [access?_push] at hb hb'
    rw [hr.size] at hb'
    split at hb
    next hi =>
      rw [if_pos hi] at hb'
      obtain rfl := Option.some.inj hb
      obtain rfl := Option.some.inj hb'
      exact ha
    next hi =>
      rw [if_neg hi] at hb'
      exact hr.access i b b' hb hb'

theorem release (hr : reg.Twins S reg') (held : List NodeId) :
    (reg.release held).Twins S (reg'.release held) where
  core := by rw [core_release, core_release, hr.core]
  bags := by rw [bags_release, bags_release, hr.bags]
  evaluations := by rw [evaluations_release, evaluations_release, hr.evaluations]
  contents := by
    rw [contents_release, contents_release]
    exact hr.contents
  wrapping := by rw [arithmetic_release, hr.wrapping]
  access := by
    rw [access?_release, access?_release]
    exact hr.access

end Twins

end Registry

end OrderedBag
