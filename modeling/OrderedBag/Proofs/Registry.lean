import OrderedBag.Proofs.Reading
import OrderedBag.Registry.Release
import Mathlib.Logic.Relation

/-!
# What holds of every registry

No operation changes what becomes of a total that is out of range; here it wraps around. A registry
changes by moves: a source, a range or a descending view gets a node, a view registers
its own descending view, a node remembers something, the contents of a bag are replaced. Every
invariant is shown to survive each move, and so holds after any number of them.

* `Registry.Move`, `Registry.Moves` — all that an operation may do to a registry
* `Registry.WellFormed` — views refer to older views, and a view and the descending view which it
  has built know each other
* `Registry.Closed` — what an existing view keeps exists
* `Registry.Stocked` — bags are not shared, and their contents are in order
* `Registry.Sound.moves` — all of this survives every sequence of moves
-/

namespace OrderedBag

open Std

variable {α : Type} {reg reg' : Registry α} {v : View α} {n : Node α} {i : NodeId}

namespace View

/-- The view to which a view refers. -/
def base? : View α → Option (View α)
  | source _ => none
  | range _ s _ => some (source s)
  | descending _ _ f => some f

/-- Whether a view shows another view backwards. -/
def isDescending : View α → Bool
  | descending _ _ _ => true
  | source _ | range _ _ _ => false

/-- What a view keeps alive is what it refers to. -/
theorem mem_keeps {j : NodeId} (hj : j ∈ v.keeps) : ∃ f, v.base? = some f ∧ f.node? = some j := by
  cases v with
  | source s => simp [keeps] at hj
  | range n s r =>
    rw [keeps, List.mem_singleton] at hj
    exact ⟨.source s, rfl, by rw [hj]; rfl⟩
  | descending n link f =>
    cases link with
    | strong => exact ⟨f, rfl, by simpa [keeps] using hj⟩
    | weak => simp [keeps] at hj

end View

namespace Registry

/-! ## Nodes and their views -/

/-- `n` is the node of the view `v`. -/
structure Has (reg : Registry α) (v : View α) (n : Node α) : Prop where
  found : reg.nodeOf? v = some n
  view : n.view = v

/-- The view has a node. -/
def Houses (reg : Registry α) (v : View α) : Prop :=
  ∃ n, reg.Has v n

/-- The view has a node and exists. -/
def Live (reg : Registry α) (v : View α) : Prop :=
  reg.Houses v ∧ v.node?.any reg.isAlive = true

theorem Has.index (h : reg.Has v n) : ∃ i, v.node? = some i ∧ reg.nodes[i]? = some n := by
  have hfound := h.found
  unfold nodeOf? at hfound
  exact Option.bind_eq_some_iff.mp hfound

theorem Has.node_eq (h : reg.Has v n) (hi : v.node? = some i) : reg.nodes[i]? = some n := by
  obtain ⟨j, hj, hn⟩ := h.index
  obtain rfl : j = i := Option.some.inj (hj.symm.trans hi)
  exact hn

theorem has_of_index (hi : v.node? = some i) (hn : reg.nodes[i]? = some n) (hv : n.view = v) :
    reg.Has v n :=
  ⟨by rw [nodeOf?, hi]; exact hn, hv⟩

theorem lt_size_of_node (h : reg.nodes[i]? = some n) : i < reg.nodes.size :=
  (Array.getElem?_eq_some_iff.mp h).1

theorem isAlive_eq (h : reg.nodes[i]? = some n) : reg.isAlive i = n.alive := by
  rw [isAlive, h, Option.any_some]

theorem exists_node_of_isAlive (h : reg.isAlive i = true) :
    ∃ n, reg.nodes[i]? = some n ∧ n.alive = true :=
  (Option.any_eq_true _ _).mp h

theorem Live.index (h : reg.Live v) : ∃ i, v.node? = some i ∧ reg.isAlive i = true :=
  (Option.any_eq_true _ _).mp h.2

theorem isAlive_of_live (h : reg.Live v) (hi : v.node? = some i) : reg.isAlive i = true := by
  obtain ⟨j, hj, halive⟩ := h.index
  obtain rfl : j = i := Option.some.inj (hj.symm.trans hi)
  exact halive

theorem live_of_index (h : reg.Houses v) (hi : v.node? = some i) (halive : reg.isAlive i = true) :
    reg.Live v :=
  ⟨h, (Option.any_eq_true _ _).mpr ⟨i, hi, halive⟩⟩

/-- A view with a node is not given another one. -/
theorem enroll_of_houses (h : reg.Houses v) : reg.enroll v = (v, reg) := by
  obtain ⟨n, hn⟩ := h
  obtain ⟨i, hi, -⟩ := hn.index
  cases v with
  | source s => rfl
  | range m s r => obtain rfl : m = some i := hi; rfl
  | descending m link f => obtain rfl : m = some i := hi; rfl

end Registry

/-! ## The invariants -/

/-- What is true of the node with number `i`. -/
structure Node.Sound (reg : Registry α) (i : NodeId) (n : Node α) : Prop where
  /-- The view knows its node. -/
  identity : n.view.node? = some i
  /-- The view refers to an older view. -/
  base : ∀ f, n.view.base? = some f → reg.Houses f ∧ ∃ j < i, f.node? = some j
  /-- Only a view which is not descending builds a descending view, and is what that one shows. -/
  reversal : ∀ d, n.reversal = some d →
    reg.Houses d ∧ n.view.isDescending = false ∧ ∃ j, d = .descending j .weak n.view
  /-- A descending view with a weak reference is the one that the view behind it has built. -/
  registered : ∀ m f, n.view = .descending m .weak f →
    ∃ k, reg.Has f k ∧ k.reversal = some n.view
  /-- There are no ranges of a source that its views cannot reach. -/
  attached : ∀ m s r, n.view = .range m s r → s.access ≠ .detached
  /-- The comparator that is remembered is the order of the view. -/
  comparator : ∀ c, n.comparator = some c → c = n.view.order

namespace Registry

/-- Every node is as it should be. -/
def WellFormed (reg : Registry α) : Prop :=
  ∀ (i : NodeId) (n : Node α), reg.nodes[i]? = some n → n.Sound reg i

/-- Whatever an existing view keeps alive exists. -/
def Closed (reg : Registry α) : Prop :=
  ∀ (i : NodeId) (n : Node α), reg.nodes[i]? = some n → n.alive = true →
    ∀ j ∈ n.keeps, reg.isAlive j = true

/-- The bag of a source exists, and its contents are in order. -/
def Stocks (reg : Registry α) (s : Source α) : Prop :=
  s.bag < reg.bags.size ∧ (reg.contents s.bag).Valid s.comparator

/-- Every source has a bag of its own, whose contents are in order. -/
structure Stocked (reg : Registry α) : Prop where
  stocks : ∀ s, reg.Houses (.source s) → reg.Stocks s
  distinct : ∀ s s', reg.Houses (.source s) → reg.Houses (.source s') → s.bag = s'.bag → s = s'

/-- Everything that holds of every registry in which totals wrap around. -/
structure Sound (reg : Registry α) : Prop where
  wellFormed : reg.WellFormed
  closed : reg.Closed
  stocked : reg.Stocked
  wrapping : reg.arithmetic = .wrapping

/-- A node is determined by its view. -/
theorem Has.unique {n m : Node α} (hn : reg.Has v n) (hm : reg.Has v m) : n = m :=
  Option.some.inj (hn.found.symm.trans hm.found)

/-- A view is determined by its number. -/
theorem houses_unique {w : View α} (hv : reg.Houses v) (hw : reg.Houses w)
    (h : v.node? = w.node?) : v = w := by
  obtain ⟨n, hn⟩ := hv
  obtain ⟨m, hm⟩ := hw
  have hsame : reg.nodeOf? v = reg.nodeOf? w := by rw [nodeOf?, nodeOf?, h]
  rw [hn.found, hm.found, Option.some.injEq] at hsame
  rw [← hn.view, ← hm.view, hsame]

/-! ## Growth -/

/-- No node is lost, none changes its view, and no descending view is forgotten. -/
def Grows (reg reg' : Registry α) : Prop :=
  ∀ (i : NodeId) (n : Node α), reg.nodes[i]? = some n →
    ∃ n', reg'.nodes[i]? = some n' ∧ n'.view = n.view ∧
      ∀ d, n.reversal = some d → n'.reversal = some d

/-- No view ceases to exist. -/
def Spares (reg reg' : Registry α) : Prop :=
  ∀ i, reg.isAlive i = true → reg'.isAlive i = true

theorem Grows.refl (reg : Registry α) : reg.Grows reg :=
  fun _ n hn => ⟨n, hn, rfl, fun _ hd => hd⟩

theorem Grows.trans {reg reg' reg'' : Registry α} (h : reg.Grows reg') (h' : reg'.Grows reg'') :
    reg.Grows reg'' := by
  intro i n hn
  obtain ⟨n', hn', hview, hrev⟩ := h i n hn
  obtain ⟨n'', hn'', hview', hrev'⟩ := h' i n' hn'
  exact ⟨n'', hn'', hview'.trans hview, fun d hd => hrev' d (hrev d hd)⟩

theorem Has.grow (h : reg.Has v n) (hg : reg.Grows reg') :
    ∃ n', reg'.Has v n' ∧ ∀ d, n.reversal = some d → n'.reversal = some d := by
  obtain ⟨i, hi, hn⟩ := h.index
  obtain ⟨n', hn', hview, hrev⟩ := hg i n hn
  exact ⟨n', has_of_index hi hn' (hview.trans h.view), hrev⟩

theorem Houses.grow (h : reg.Houses v) (hg : reg.Grows reg') : reg'.Houses v := by
  obtain ⟨n, hn⟩ := h
  obtain ⟨n', hn', -⟩ := hn.grow hg
  exact ⟨n', hn'⟩

theorem Live.grow (h : reg.Live v) (hg : reg.Grows reg') (hs : reg.Spares reg') : reg'.Live v := by
  obtain ⟨i, hi, halive⟩ := h.index
  exact live_of_index (h.1.grow hg) hi (hs i halive)

end Registry

/-- What is true of a node stays true as the registry grows, also when the node comes to remember
the comparator of its view. -/
theorem Node.Sound.grow {n n' : Node α} (h : n.Sound reg i) (hg : reg.Grows reg')
    (hview : n'.view = n.view) (hrev : n'.reversal = n.reversal)
    (hcomp : ∀ c, n'.comparator = some c → n.comparator = some c ∨ c = n.view.order) :
    n'.Sound reg' i where
  identity := by
    rw [hview]
    exact h.identity
  base := by
    rw [hview]
    intro f hf
    obtain ⟨hhouses, hold⟩ := h.base f hf
    exact ⟨hhouses.grow hg, hold⟩
  reversal := by
    rw [hview, hrev]
    intro d hd
    obtain ⟨hhouses, hshape⟩ := h.reversal d hd
    exact ⟨hhouses.grow hg, hshape⟩
  registered := by
    rw [hview]
    intro m f hf
    obtain ⟨k, hk, hslot⟩ := h.registered m f hf
    obtain ⟨k', hk', hkeep⟩ := hk.grow hg
    exact ⟨k', hk', hkeep _ hslot⟩
  attached := by
    rw [hview]
    exact h.attached
  comparator := by
    rw [hview]
    intro c hc
    rcases hcomp c hc with hc | hc
    · exact h.comparator c hc
    · exact hc

namespace Registry

/-! ## Moves -/

/-- Gives a node to a view. -/
def push (reg : Registry α) (v : View α) : Registry α :=
  { reg with nodes := reg.nodes.push (.fresh v) }

/-- One thing that an operation may do to a registry. -/
inductive Move : Registry α → Registry α → Prop
  /-- Bags and nodes stay as they are. -/
  | aside {reg reg' : Registry α} (hbags : reg'.bags = reg.bags) (hnodes : reg'.nodes = reg.nodes)
      (harith : reg'.arithmetic = reg.arithmetic) : Move reg reg'
  /-- An empty source is made. -/
  | source (reg : Registry α) (c : Comparator α) (a : Access) : Move reg (reg.addSource c a).2
  /-- A range of an existing source gets a node. -/
  | narrowed {reg : Registry α} {s : Source α} (r : Interval α) (hs : reg.Live (.source s))
      (hattached : s.access ≠ .detached) :
      Move reg (reg.push (.range (some reg.nodes.size) s r))
  /-- A descending view which keeps an existing view alive gets a node. -/
  | turned {reg : Registry α} {f : View α} (hf : reg.Live f) :
      Move reg (reg.push (.descending (some reg.nodes.size) .strong f))
  /-- A view which is not descending builds its descending view. -/
  | reversed {reg : Registry α} {v d : View α} {n : Node α} (hv : reg.Has v n)
      (hup : v.isDescending = false) (hnone : n.reversal = none)
      (hd : d = .descending (some reg.nodes.size) .weak v) :
      Move reg ((reg.push d).updateNode v fun m => { m with reversal := some d })
  /-- A node remembers its sets or its comparator. -/
  | annotated {reg : Registry α} {v : View α} {n : Node α} (f : Node α → Node α) (hv : reg.Has v n)
      (hview : (f n).view = n.view) (halive : (f n).alive = n.alive)
      (hrev : (f n).reversal = n.reversal)
      (hcomp : ∀ c, (f n).comparator = some c → n.comparator = some c ∨ c = v.order) :
      Move reg (reg.updateNode v f)
  /-- The contents of a source are replaced. -/
  | stored {reg : Registry α} {s : Source α} {h : Histogram α} (hs : reg.Houses (.source s))
      (hh : h.Valid s.comparator) : Move reg (reg.setContents s.bag h)

/-- Any number of moves. -/
abbrev Moves : Registry α → Registry α → Prop :=
  Relation.ReflTransGen Move

theorem node_push (reg : Registry α) (v : View α) (i : NodeId) :
    (reg.push v).nodes[i]? = if i = reg.nodes.size then some (.fresh v) else reg.nodes[i]? :=
  Array.getElem?_push

theorem node_updateNode (h : reg.Has v n) (f : Node α → Node α) (i : NodeId) :
    (reg.updateNode v f).nodes[i]? = if v.node? = some i then some (f n) else reg.nodes[i]? := by
  obtain ⟨j, hj, hn⟩ := h.index
  unfold updateNode
  rw [hj]
  simp only [Array.getElem?_modify, Option.some.injEq]
  split
  next hji => rw [← hji, hn]; rfl
  next => rfl

theorem grows_of_nodes (hnodes : reg'.nodes = reg.nodes) : reg.Grows reg' :=
  fun i n hn => ⟨n, by rw [hnodes, hn], rfl, fun _ hd => hd⟩

theorem grows_push (reg : Registry α) (v : View α) : reg.Grows (reg.push v) := by
  intro i n hn
  refine ⟨n, ?_, rfl, fun _ hd => hd⟩
  rw [node_push, if_neg (Nat.ne_of_lt (lt_size_of_node hn)), hn]

theorem spares_push (reg : Registry α) (v : View α) : reg.Spares (reg.push v) := by
  intro i hi
  obtain ⟨n, hn, halive⟩ := exists_node_of_isAlive hi
  rw [isAlive, node_push, if_neg (Nat.ne_of_lt (lt_size_of_node hn)), hn]
  exact halive

theorem Has.push (h : reg.Has v n) (w : View α) : (reg.push w).Has v n := by
  obtain ⟨i, hi, hn⟩ := h.index
  refine has_of_index hi ?_ h.view
  rw [node_push, if_neg (Nat.ne_of_lt (lt_size_of_node hn)), hn]

theorem grows_updateNode (h : reg.Has v n) {f : Node α → Node α} (hview : (f n).view = n.view)
    (hrev : ∀ d, n.reversal = some d → (f n).reversal = some d) :
    reg.Grows (reg.updateNode v f) := by
  intro i m hm
  rw [node_updateNode h]
  obtain ⟨j, hj, hn⟩ := h.index
  split
  next hi =>
    obtain rfl : j = i := Option.some.inj (hj.symm.trans hi)
    obtain rfl : n = m := Option.some.inj (hn.symm.trans hm)
    exact ⟨f n, rfl, hview, hrev⟩
  next => exact ⟨m, hm, rfl, fun _ hd => hd⟩

theorem isAlive_updateNode (h : reg.Has v n) {f : Node α → Node α} (halive : (f n).alive = n.alive)
    (i : NodeId) : (reg.updateNode v f).isAlive i = reg.isAlive i := by
  rw [isAlive, node_updateNode h]
  obtain ⟨j, hj, hn⟩ := h.index
  split
  next hi =>
    obtain rfl : j = i := Option.some.inj (hj.symm.trans hi)
    rw [isAlive_eq hn]
    exact halive
  next => rfl

/-- The view that gets a node has it. -/
theorem has_push (hv : v.node? = some reg.nodes.size) : (reg.push v).Has v (.fresh v) :=
  has_of_index hv (by rw [node_push, if_pos rfl]) rfl

theorem live_push (hv : v.node? = some reg.nodes.size) : (reg.push v).Live v := by
  refine live_of_index ⟨_, has_push hv⟩ hv ?_
  rw [isAlive, node_push, if_pos rfl]
  rfl

/-! ## What a move keeps -/

theorem Move.grows (h : reg.Move reg') : reg.Grows reg' := by
  cases h with
  | aside _ hnodes => exact grows_of_nodes hnodes
  | source c a => exact grows_push reg _
  | narrowed r _ _ => exact grows_push reg _
  | turned _ => exact grows_push reg _
  | reversed hv _ hnone _ =>
    refine (grows_push reg _).trans (grows_updateNode (hv.push _) rfl ?_)
    intro d hd
    simp [hnone] at hd
  | annotated f hv hview _ hrev _ =>
    exact grows_updateNode hv hview fun d hd => hrev.trans hd
  | stored _ _ => exact grows_of_nodes rfl

theorem Move.spares (h : reg.Move reg') : reg.Spares reg' := by
  cases h with
  | aside _ hnodes =>
    intro i hi
    rw [isAlive, hnodes]
    exact hi
  | source c a => exact spares_push reg (.source _)
  | narrowed r _ _ => exact spares_push reg _
  | turned _ => exact spares_push reg _
  | reversed hv _ _ _ =>
    intro i hi
    rw [isAlive_updateNode (hv.push _) rfl]
    exact spares_push reg _ i hi
  | annotated f hv _ halive _ _ =>
    intro i hi
    rw [isAlive_updateNode hv halive]
    exact hi
  | stored _ _ => exact fun i hi => hi

/-- A node after a view got one is a node from before, or the new one. -/
theorem old_or_fresh (h : (reg.push v).nodes[i]? = some n) :
    reg.nodes[i]? = some n ∨ i = reg.nodes.size ∧ n = .fresh v := by
  rw [node_push] at h
  split at h
  next hi => exact .inr ⟨hi, (Option.some.inj h).symm⟩
  next => exact .inl h

/-- A node after one of them changed is a node from before, or the changed one. -/
theorem old_or_changed (hv : reg.Has v n) {f : Node α → Node α} {m : Node α}
    (h : (reg.updateNode v f).nodes[i]? = some m) :
    reg.nodes[i]? = some m ∨ v.node? = some i ∧ m = f n := by
  rw [node_updateNode hv] at h
  split at h
  next hi => exact .inr ⟨hi, (Option.some.inj h).symm⟩
  next => exact .inl h

/-- A view which refers to older views may get a node. -/
theorem sound_fresh (hg : reg.Grows reg') (hid : v.node? = some reg.nodes.size)
    (hbase : ∀ f, v.base? = some f → reg.Houses f)
    (hweak : ∀ m f, v = .descending m .weak f → ∃ k, reg'.Has f k ∧ k.reversal = some v)
    (hrange : ∀ m s r, v = .range m s r → s.access ≠ .detached) :
    (Node.fresh v).Sound reg' reg.nodes.size where
  identity := hid
  base := by
    intro f hf
    obtain ⟨n, hn⟩ := hbase f hf
    obtain ⟨j, hj, hnode⟩ := hn.index
    exact ⟨Houses.grow ⟨n, hn⟩ hg, j, lt_size_of_node hnode, hj⟩
  reversal := fun d hd => by simp [Node.fresh] at hd
  registered := hweak
  attached := hrange
  comparator := fun c hc => by simp [Node.fresh] at hc

theorem WellFormed.of_nodes (hw : reg.WellFormed) (hnodes : reg'.nodes = reg.nodes) :
    reg'.WellFormed := by
  intro i n hn
  rw [hnodes] at hn
  exact (hw i n hn).grow (grows_of_nodes hnodes) rfl rfl fun _ hc => .inl hc

theorem WellFormed.push (hw : reg.WellFormed) (hid : v.node? = some reg.nodes.size)
    (hbase : ∀ f, v.base? = some f → reg.Houses f) (hstrong : ∀ m f, v ≠ .descending m .weak f)
    (hrange : ∀ m s r, v = .range m s r → s.access ≠ .detached) : (reg.push v).WellFormed := by
  intro i n hn
  rcases old_or_fresh hn with hn | ⟨rfl, rfl⟩
  · exact (hw i n hn).grow (grows_push reg v) rfl rfl fun _ hc => .inl hc
  · exact sound_fresh (grows_push reg v) hid hbase (fun m f h => absurd h (hstrong m f))
      hrange

theorem WellFormed.move (hw : reg.WellFormed) (h : reg.Move reg') : reg'.WellFormed := by
  have hg := h.grows
  have old {i : NodeId} {n : Node α} (hn : reg.nodes[i]? = some n) : n.Sound reg' i :=
    (hw i n hn).grow hg rfl rfl fun _ hc => .inl hc
  cases h with
  | aside _ hnodes => exact hw.of_nodes hnodes
  | source c a =>
    let v : View α := .source ⟨reg.nodes.size, reg.bags.size, c, a⟩
    have hpush : (reg.push v).WellFormed :=
      hw.push rfl (by simp [v, View.base?]) (by simp [v]) (by simp [v])
    exact hpush.of_nodes rfl
  | narrowed r hs hattached =>
    refine hw.push rfl ?_ (by simp) ?_
    · rintro f ⟨⟩
      exact hs.1
    · rintro m s r ⟨⟩
      exact hattached
  | turned hf =>
    refine hw.push rfl ?_ (by simp) (by simp)
    rintro f ⟨⟩
    exact hf.1
  | @reversed v d n hv hup hnone hd =>
    intro i n' hn'
    have hslot : ((reg.push d).updateNode v fun m => { m with reversal := some d }).Has v
        { n with reversal := some d } := by
      obtain ⟨i, hi, -⟩ := hv.index
      exact has_of_index hi (by rw [node_updateNode (hv.push d), if_pos hi]) hv.view
    -- there is one new node, and one that comes to know the new view
    rcases old_or_changed (hv.push d) hn' with hn | ⟨hi, rfl⟩
    · rcases old_or_fresh hn with hn | ⟨rfl, rfl⟩
      · exact old hn
      · subst hd
        refine sound_fresh hg rfl ?_ ?_ (by simp)
        · rintro f ⟨⟩
          exact ⟨n, hv⟩
        · rintro m f ⟨⟩
          exact ⟨_, hslot, rfl⟩
    · have hs := old (hv.node_eq hi)
      have hd' : ((reg.push d).updateNode v fun m => { m with reversal := some d }).Houses d := by
        refine Houses.grow ⟨_, has_push (by rw [hd]; rfl)⟩ (grows_updateNode (hv.push d) rfl ?_)
        intro d' hd'
        simp [hnone] at hd'
      refine ⟨hs.identity, hs.base, ?_, ?_, hs.attached, hs.comparator⟩
      · rintro d' ⟨⟩
        rw [hv.view]
        exact ⟨hd', hup, _, hd⟩
      · intro m f hf
        have hf : n.view = .descending m .weak f := hf
        rw [← hv.view, hf] at hup
        simp [View.isDescending] at hup
  | annotated f hv hview halive hrev hcomp =>
    intro i n' hn'
    rcases old_or_changed hv hn' with hn | ⟨hi, rfl⟩
    · exact old hn
    · refine (hw i _ (hv.node_eq hi)).grow hg hview hrev ?_
      rw [hv.view]
      exact hcomp
  | stored _ _ => exact hw.of_nodes rfl

/-- What a view keeps alive exists if what it refers to does. -/
theorem isAlive_of_mem_keeps (hbase : ∀ f, v.base? = some f → reg.Live f) {j : NodeId}
    (hj : j ∈ v.keeps) : reg.isAlive j = true := by
  obtain ⟨f, hf, hnode⟩ := View.mem_keeps hj
  exact isAlive_of_live (hbase f hf) hnode

theorem Closed.of_nodes (hc : reg.Closed) (hnodes : reg'.nodes = reg.nodes) : reg'.Closed := by
  intro i n hn halive j hj
  rw [hnodes] at hn
  rw [isAlive, hnodes]
  exact hc i n hn halive j hj

theorem Closed.push (hc : reg.Closed) (hkeeps : ∀ j ∈ v.keeps, reg.isAlive j = true) :
    (reg.push v).Closed := by
  intro i n hn halive j hj
  rcases old_or_fresh hn with hn | ⟨rfl, rfl⟩
  · exact spares_push reg v j (hc i n hn halive j hj)
  · exact spares_push reg v j (hkeeps j (by simpa [Node.keeps, Node.fresh] using hj))

theorem Closed.move (hc : reg.Closed) (h : reg.Move reg') : reg'.Closed := by
  have hs := h.spares
  cases h with
  | aside _ hnodes => exact hc.of_nodes hnodes
  | source c a =>
    let v : View α := .source ⟨reg.nodes.size, reg.bags.size, c, a⟩
    have hpush : (reg.push v).Closed := hc.push (by simp [v, View.keeps])
    exact hpush.of_nodes rfl
  | narrowed r hlive _ =>
    refine hc.push fun j hj => isAlive_of_mem_keeps ?_ hj
    rintro f ⟨⟩
    exact hlive
  | turned hlive =>
    refine hc.push fun j hj => isAlive_of_mem_keeps ?_ hj
    rintro f ⟨⟩
    exact hlive
  | @reversed v d n hv hup hnone hd =>
    -- a descending view with a weak reference keeps nothing, but the view behind it keeps it now
    have hpush : (reg.push d).Closed := hc.push (by simp [hd, View.keeps])
    intro i n' hn' halive j hj
    rw [isAlive_updateNode (hv.push d) rfl]
    rcases old_or_changed (hv.push d) hn' with hn | ⟨hi, rfl⟩
    · exact hpush i n' hn halive j hj
    · rcases List.mem_append.mp hj with hj | hj
      · exact hpush i n ((hv.push d).node_eq hi) halive j (List.mem_append_left _ hj)
      · obtain rfl : j = reg.nodes.size := by
          simpa [hd, View.node?] using hj
        exact isAlive_of_live (live_push (by rw [hd]; rfl)) (by rw [hd]; rfl)
  | @annotated v n f hv hview halive' hrev _ =>
    intro i n' hn' halive j hj
    rcases old_or_changed hv hn' with hn | ⟨hi, rfl⟩
    · exact hs j (hc i n' hn halive j hj)
    · refine hs j (hc i n (hv.node_eq hi) (halive'.symm.trans halive) j ?_)
      rwa [Node.keeps, hview, hrev] at hj
  | stored _ _ => exact hc.of_nodes rfl

theorem Houses.of_nodes (h : reg'.Houses v) (hnodes : reg'.nodes = reg.nodes) : reg.Houses v := by
  obtain ⟨n, hn⟩ := h
  obtain ⟨i, hi, hnode⟩ := hn.index
  exact ⟨n, has_of_index hi (by rw [← hnodes, hnode]) hn.view⟩

theorem houses_of_push {v w : View α} (h : (reg.push w).Houses v) : reg.Houses v ∨ v = w := by
  obtain ⟨n, hn⟩ := h
  obtain ⟨i, hi, hnode⟩ := hn.index
  rcases old_or_fresh hnode with hold | ⟨-, rfl⟩
  · exact .inl ⟨n, has_of_index hi hold hn.view⟩
  · exact .inr hn.view.symm

theorem houses_of_updateNode {v w : View α} (hw : reg.Has w n) {f : Node α → Node α}
    (hview : (f n).view = n.view) (h : (reg.updateNode w f).Houses v) : reg.Houses v := by
  obtain ⟨m, hm⟩ := h
  obtain ⟨i, hi, hnode⟩ := hm.index
  rcases old_or_changed hw hnode with hold | ⟨hi', rfl⟩
  · exact ⟨m, has_of_index hi hold hm.view⟩
  · exact ⟨n, has_of_index hi (hw.node_eq hi') (hview.symm.trans hm.view)⟩

/-- A move which makes no source and replaces no contents leaves the bags in order. -/
theorem Stocked.of_bags (h : reg.Stocked) (hbags : reg'.bags = reg.bags)
    (hold : ∀ s, reg'.Houses (.source s) → reg.Houses (.source s)) : reg'.Stocked where
  stocks := by
    intro s hs
    have hstocks := h.stocks s (hold s hs)
    unfold Stocks contents at hstocks ⊢
    rwa [hbags]
  distinct := fun s s' hs hs' => h.distinct s s' (hold s hs) (hold s' hs')

theorem Stocked.move (hst : reg.Stocked) (h : reg.Move reg') : reg'.Stocked := by
  cases h with
  | aside hbags hnodes => exact hst.of_bags hbags fun s hs => hs.of_nodes hnodes
  | source c a =>
    have hcases (s : Source α) (hs : (reg.addSource c a).2.Houses (.source s)) :
        reg.Houses (.source s) ∨ s = ⟨reg.nodes.size, reg.bags.size, c, a⟩ := by
      have hpush : (reg.push (.source ⟨reg.nodes.size, reg.bags.size, c, a⟩)).Houses (.source s) :=
        hs.of_nodes rfl
      rcases houses_of_push hpush with hs | hs
      · exact .inl hs
      · exact .inr (View.source.inj hs)
    have hbag (b : BagId) (hb : b < reg.bags.size) :
        (reg.addSource c a).2.contents b = reg.contents b := by
      unfold contents addSource
      rw [Array.getElem?_push_lt hb, Array.getElem?_eq_getElem hb]
    constructor
    · intro s hs
      rcases hcases s hs with hold | rfl
      · obtain ⟨hlt, hvalid⟩ := hst.stocks s hold
        refine ⟨?_, by rwa [hbag s.bag hlt]⟩
        show s.bag < (reg.bags.push .empty).size
        rw [Array.size_push]
        exact Nat.lt_succ_of_lt hlt
      · constructor
        · show reg.bags.size < (reg.bags.push .empty).size
          rw [Array.size_push]
          exact Nat.lt_succ_self _
        · unfold contents addSource
          simpa using Histogram.valid_empty c
    · intro s s' hs hs' heq
      rcases hcases s hs with hold | rfl <;> rcases hcases s' hs' with hold' | rfl
      · exact hst.distinct s s' hold hold' heq
      · exact absurd heq (Nat.ne_of_lt (hst.stocks s hold).1)
      · exact absurd heq.symm (Nat.ne_of_lt (hst.stocks s' hold').1)
      · rfl
  | narrowed r _ _ =>
    refine hst.of_bags rfl fun s hs => ?_
    exact (houses_of_push hs).resolve_right (by simp)
  | turned _ =>
    refine hst.of_bags rfl fun s hs => ?_
    exact (houses_of_push hs).resolve_right (by simp)
  | @reversed v d n hv hup hnone hd =>
    have hbags : ((reg.push d).updateNode v fun m => { m with reversal := some d }).bags =
        reg.bags := by
      unfold updateNode
      split <;> rfl
    refine hst.of_bags hbags fun s hs => ?_
    refine (houses_of_push (houses_of_updateNode (hv.push d) rfl hs)).resolve_right ?_
    simp [hd]
  | @annotated v n f hv hview _ _ _ =>
    have hbags : (reg.updateNode v f).bags = reg.bags := by
      unfold updateNode
      split <;> rfl
    exact hst.of_bags hbags fun s hs => houses_of_updateNode hv hview hs
  | @stored s h hs hh =>
    have hold (s' : Source α) (hs' : (reg.setContents s.bag h).Houses (.source s')) :
        reg.Houses (.source s') := hs'.of_nodes rfl
    constructor
    · intro s' hs'
      obtain ⟨hlt, hvalid⟩ := hst.stocks s' (hold s' hs')
      refine ⟨by simpa [setContents] using hlt, ?_⟩
      rw [contents_setContents]
      split
      next hbag =>
        -- no other source has this bag, so its comparator is the right one
        obtain rfl : s' = s := hst.distinct s' s (hold s' hs') hs hbag.1
        exact hh
      next => exact hvalid
    · exact fun s' s'' hs' hs'' => hst.distinct s' s'' (hold s' hs') (hold s'' hs'')

/-! ## Any number of moves -/

theorem arithmetic_updateNode (reg : Registry α) (v : View α) (f : Node α → Node α) :
    (reg.updateNode v f).arithmetic = reg.arithmetic := by
  unfold updateNode
  split <;> rfl

theorem Move.arithmetic_eq (h : reg.Move reg') : reg'.arithmetic = reg.arithmetic := by
  cases h with
  | aside _ _ harith => exact harith
  | reversed _ _ _ _ => exact arithmetic_updateNode _ _ _
  | annotated f _ _ _ _ _ => exact arithmetic_updateNode _ _ _
  | source _ _ | narrowed _ _ _ | turned _ | stored _ _ => rfl

theorem Sound.move (hs : reg.Sound) (h : reg.Move reg') : reg'.Sound :=
  ⟨hs.wellFormed.move h, hs.closed.move h, hs.stocked.move h, h.arithmetic_eq.trans hs.wrapping⟩

theorem Sound.moves (hs : reg.Sound) (h : reg.Moves reg') : reg'.Sound := by
  induction h with
  | refl => exact hs
  | tail _ hmove ih => exact ih.move hmove

theorem Moves.grows (h : reg.Moves reg') : reg.Grows reg' := by
  induction h with
  | refl => exact .refl reg
  | tail _ hmove ih => exact ih.trans hmove.grows

theorem Moves.spares (h : reg.Moves reg') : reg.Spares reg' := by
  induction h with
  | refl => exact fun _ hi => hi
  | tail _ hmove ih => exact fun i hi => hmove.spares i (ih i hi)

theorem Houses.moves (hv : reg.Houses v) (h : reg.Moves reg') : reg'.Houses v :=
  hv.grow (Moves.grows h)

theorem Live.moves (hv : reg.Live v) (h : reg.Moves reg') : reg'.Live v :=
  hv.grow (Moves.grows h) (Moves.spares h)

/-- A reference that leads somewhere keeps leading there while no view ceases to exist. -/
theorem canUpgrade_of_spares (h : reg.canUpgrade v = true) (hs : reg.Spares reg') :
    reg'.canUpgrade v = true := by
  rw [canUpgrade, Bool.and_eq_true] at h ⊢
  obtain ⟨halive, hatt⟩ := h
  obtain ⟨i, hi, halive⟩ := (Option.any_eq_true _ _).mp halive
  exact ⟨(Option.any_eq_true _ _).mpr ⟨i, hi, hs i halive⟩, hatt⟩

theorem follow_of_spares {link : Link} (h : reg.follow link v = .ok ()) (hs : reg.Spares reg') :
    reg'.follow link v = .ok () := by
  cases link with
  | strong => rfl
  | weak =>
    rw [follow_weak] at h ⊢
    split at h
    next hup => rw [if_pos (canUpgrade_of_spares hup hs)]
    next => cases h

theorem canReach_of_spares (h : reg.canReach v = true) (hs : reg.Spares reg') :
    reg'.canReach v = true := by
  induction v with
  | source s => rfl
  | range n s r => rfl
  | descending n link f ih =>
    cases link with
    | strong => exact ih h
    | weak =>
      rw [canReach, Bool.and_eq_true] at h ⊢
      exact ⟨canUpgrade_of_spares h.1 hs, ih h.2⟩

theorem canReach_of_moves (h : reg.canReach v = true) (hm : reg.Moves reg') :
    reg'.canReach v = true :=
  canReach_of_spares h (Moves.spares hm)

theorem sound_empty : (empty .wrapping : Registry α).Sound where
  wellFormed := fun i n hn => by simp [empty] at hn
  closed := fun i n hn => by simp [empty] at hn
  stocked := by
    constructor
    · rintro s ⟨n, hn⟩
      obtain ⟨i, -, hnode⟩ := hn.index
      simp [empty] at hnode
    · rintro s s' ⟨n, hn⟩
      obtain ⟨i, -, hnode⟩ := hn.index
      simp [empty] at hnode
  wrapping := rfl

/-! ## Views with a node -/

/-- What a view refers to has a node. -/
theorem Houses.base (hw : reg.WellFormed) {v f : View α} (h : reg.Houses v) (hf : v.base? = some f)
    : reg.Houses f := by
  obtain ⟨n, hn⟩ := h
  obtain ⟨i, -, hnode⟩ := hn.index
  exact ((hw i n hnode).base f (by rw [hn.view, hf])).1

/-- An existing view keeps the view behind it alive, unless the reference is weak. -/
theorem Live.kept (hs : reg.Sound) {v f : View α} {j : NodeId} (h : reg.Live v)
    (hf : v.base? = some f) (hj : f.node? = some j) (hkeep : j ∈ v.keeps) : reg.Live f := by
  obtain ⟨n, hn⟩ := h.1
  obtain ⟨i, hi, hnode⟩ := hn.index
  refine live_of_index (h.1.base hs.wellFormed hf) hj (hs.closed i n hnode ?_ j ?_)
  · rw [← isAlive_eq hnode, isAlive_of_live h hi]
  · rw [Node.keeps, hn.view]
    exact List.mem_append_left _ hkeep

theorem Live.source (hs : reg.Sound) {n : Option NodeId} {s : Source α} {r : Interval α}
    (h : reg.Live (.range n s r)) : reg.Live (.source s) :=
  h.kept hs rfl rfl (by simp [View.keeps])

theorem Live.forward (hs : reg.Sound) {n : Option NodeId} {f : View α}
    (h : reg.Live (.descending n .strong f)) : reg.Live f := by
  obtain ⟨m, hm⟩ := h.1.base hs.wellFormed rfl
  obtain ⟨j, hj, -⟩ := hm.index
  exact h.kept hs rfl hj (by simp [View.keeps, hj])

/-- The source behind a view has a node. -/
theorem Houses.root (hw : reg.WellFormed) (h : reg.Houses v) : reg.Houses (.source v.root) := by
  induction v with
  | source s => exact h
  | range n s r => exact h.base hw rfl
  | descending n link f ih => exact ih (h.base hw rfl)

/-- The bag behind a view is in order. -/
theorem Sound.stocks_root (hs : reg.Sound) (hv : reg.Houses v) : reg.Stocks v.root :=
  hs.stocked.stocks _ (hv.root hs.wellFormed)

/-- A view with a node is usable if every reference on the way to the source can be followed. -/
theorem Sound.usable (hs : reg.Sound) (hv : reg.Houses v) (hreach : reg.canReach v = true) :
    v.Usable reg :=
  ⟨hreach, (hs.stocks_root hv).2⟩

/-- What a view has built is registered with it alone. -/
theorem Has.reversal_eq (hw : reg.WellFormed) {v d : View α} (h : reg.Has v n)
    (hd : n.reversal = some d) :
    reg.Houses d ∧ v.isDescending = false ∧ ∃ j, d = .descending j .weak v := by
  obtain ⟨i, -, hnode⟩ := h.index
  have hrev := (hw i n hnode).reversal d hd
  rwa [h.view] at hrev

/-- A descending view with a weak reference is the one that the view behind it has built. -/
theorem Houses.registered (hw : reg.WellFormed) {m : Option NodeId} {f : View α}
    (h : reg.Houses (.descending m .weak f)) :
    ∃ k, reg.Has f k ∧ k.reversal = some (.descending m .weak f) := by
  obtain ⟨n, hn⟩ := h
  obtain ⟨i, -, hnode⟩ := hn.index
  obtain ⟨k, hk, hslot⟩ := (hw i n hnode).registered m f hn.view
  exact ⟨k, hk, hn.view ▸ hslot⟩

theorem isDescending_of_weak (hw : reg.WellFormed) {m : Option NodeId} {f : View α}
    (h : reg.Houses (.descending m .weak f)) : f.isDescending = false := by
  obtain ⟨k, hk, hslot⟩ := h.registered hw
  exact (hk.reversal_eq hw hslot).2.1

end Registry

end OrderedBag
