import OrderedBag.Failure
import OrderedBag.View.Basic

/-!
# The registry

Where the contents of bags and the views that somebody holds are kept. A node remembers what a view
builds only once: its descending view, its element set, its entry set, and, for a descending view,
its comparator. Node and bag numbers are never used again.

* `Registry.follow` — a weak reference can be followed while its target is alive
* `Registry.enroll` — gives a view a node, together with the views that it refers to
-/

namespace OrderedBag

variable {α : Type}

/-- A view that somebody holds, and what it has built. -/
structure Node (α : Type) where
  /-- The view itself. -/
  view : View α
  /-- Whether the view still exists. -/
  alive : Bool
  /-- The descending view, once it is built. -/
  reversal : Option (View α)
  /-- The comparator of a descending view, once it was asked for. -/
  comparator : Option (Comparator α)
  /-- Whether the element set is built. -/
  hasElementSet : Bool
  /-- Whether the entry set is built. -/
  hasEntrySet : Bool

/-- A view that has built nothing. -/
def Node.fresh (v : View α) : Node α :=
  ⟨v, true, none, none, false, false⟩

/-- The nodes that a node keeps alive: what its view refers to, and the descending view that it has
built. -/
def Node.keeps (n : Node α) : List NodeId :=
  n.view.keeps ++ (n.reversal.bind View.node?).toList

/-- All contents and all held views. -/
structure Registry (α : Type) where
  /-- The contents of each bag. -/
  bags : Array (Histogram α)
  /-- The views that are or were held. -/
  nodes : Array (Node α)
  /-- How many ordering functions have been evaluated. -/
  evaluations : Nat
  /-- What was written to the log. -/
  log : List Record
  /-- What becomes of totals that would be out of range. -/
  arithmetic : Arithmetic

namespace Registry

/-- No bag and no view. -/
def empty (a : Arithmetic) : Registry α :=
  ⟨#[], #[], 0, [], a⟩

/-! ## Contents -/

/-- The contents of a bag. -/
def contents (reg : Registry α) (b : BagId) : Histogram α :=
  reg.bags[b]?.getD .empty

/-- Replaces the contents of a bag. -/
def setContents (reg : Registry α) (b : BagId) (h : Histogram α) : Registry α :=
  { reg with bags := reg.bags.setIfInBounds b h }

/-- Writes to the log. -/
def record (reg : Registry α) (r : Record) : Registry α :=
  { reg with log := reg.log ++ [r] }

/-! ## Nodes -/

/-- Whether the view with that identity still exists. -/
def isAlive (reg : Registry α) (i : NodeId) : Bool :=
  reg.nodes[i]?.any Node.alive

/-- The node of a view, if it has one. -/
def nodeOf? (reg : Registry α) (v : View α) : Option (Node α) :=
  v.node?.bind fun i => reg.nodes[i]?

/-- Changes what the node of a view remembers. -/
def updateNode (reg : Registry α) (v : View α) (f : Node α → Node α) : Registry α :=
  match v.node? with
  | some i => { reg with nodes := reg.nodes.modify i f }
  | none => reg

/-- Whether a weak reference to a view leads anywhere. -/
def canUpgrade (reg : Registry α) (v : View α) : Bool :=
  v.node?.any reg.isAlive && !v.isDetached

/-- Follows a reference to a view. -/
def follow (reg : Registry α) (link : Link) (v : View α) : Except Failure Unit :=
  match link with
  | .strong => .ok ()
  | .weak => if reg.canUpgrade v then .ok () else .error .ownerDropped

/-- Whether every reference on the way down to the source can be followed. -/
def canReach (reg : Registry α) : View α → Bool
  | .descending _ .strong f => reg.canReach f
  | .descending _ .weak f => reg.canUpgrade f && reg.canReach f
  | _ => true

/-- Gives a view a node, and before that the views which it refers to, unless they have one. -/
def enroll (reg : Registry α) : View α → View α × Registry α
  | .source s => (.source s, reg)
  | .range (some i) s r => (.range (some i) s r, reg)
  | .range none s r =>
    let v := View.range (some reg.nodes.size) s r
    (v, { reg with nodes := reg.nodes.push (.fresh v) })
  | .descending (some i) link f => (.descending (some i) link f, reg)
  | .descending none link f =>
    let (f, reg) := reg.enroll f
    let v := View.descending (some reg.nodes.size) link f
    (v, { reg with nodes := reg.nodes.push (.fresh v) })

/-- Makes an empty bag and the source that holds it. -/
def addSource (reg : Registry α) (c : Comparator α) (a : Access) : Source α × Registry α :=
  let s : Source α := ⟨reg.nodes.size, reg.bags.size, c, a⟩
  (s, { reg with
    bags := reg.bags.push .empty
    nodes := reg.nodes.push (.fresh (.source s)) })

/-- Makes a comparator which differs from all others. -/
def evaluate (reg : Registry α) (o : Order α) : Comparator α × Registry α :=
  (⟨reg.evaluations, o, false⟩, { reg with evaluations := reg.evaluations + 1 })

/-! ## What each operation does -/

@[simp] theorem contents_updateNode (reg : Registry α) (v : View α) (f : Node α → Node α) :
    (reg.updateNode v f).contents = reg.contents := by
  unfold updateNode
  split <;> rfl

theorem contents_setContents (reg : Registry α) (b : BagId) (h : Histogram α) (b' : BagId) :
    (reg.setContents b h).contents b' =
      if b' = b ∧ b < reg.bags.size then h else reg.contents b' := by
  unfold contents setContents
  by_cases hb : b = b'
  · subst hb
    by_cases hlt : b < reg.bags.size <;> simp [hlt]
  · simp [hb, Ne.symm hb]

theorem setContents_setContents (reg : Registry α) (b : BagId) (h h' : Histogram α) :
    (reg.setContents b h).setContents b h' = reg.setContents b h' := by
  simp [setContents]

theorem follow_weak (reg : Registry α) (v : View α) :
    reg.follow .weak v = if reg.canUpgrade v then .ok () else .error .ownerDropped := rfl

/-- A view gets a node without changing what it shows. -/
@[simp] theorem contents_enroll (reg : Registry α) (v : View α) :
    (reg.enroll v).2.contents = reg.contents := by
  induction v with
  | source s => rfl
  | range n s r => cases n <;> rfl
  | descending n link f ih =>
    cases n with
    | some i => rfl
    | none => exact ih

/-- A view with a node has the listing of the view without it. -/
@[simp] theorem listing_enroll (reg : Registry α) (v : View α)
    (contents : BagId → Histogram α) :
    (reg.enroll v).1.listing contents = v.listing contents := by
  induction v with
  | source s => rfl
  | range n s r => cases n <;> rfl
  | descending n link f ih =>
    cases n with
    | some i => rfl
    | none => exact congrArg List.reverse ih

/-- A view with a node has the order of the view without it. -/
@[simp] theorem order_enroll (reg : Registry α) (v : View α) :
    (reg.enroll v).1.order = v.order := by
  induction v with
  | source s => rfl
  | range n s r => cases n <;> rfl
  | descending n link f ih =>
    cases n with
    | some i => rfl
    | none => exact congrArg Comparator.reversed ih

end Registry

end OrderedBag
