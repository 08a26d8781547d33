import OrderedBag.Registry.Basic

/-!
# Releasing views

A view exists as long as somebody holds it or an existing view keeps it alive. Releasing goes in
rounds: each round ends the existence of every view that nothing keeps any more, which may leave
further views without a keeper, until a round changes nothing.

* `Registry.sweep` — one round
* `Registry.release` — as many rounds as it takes
-/

namespace OrderedBag

variable {α : Type}

namespace Registry

/-- The views that somebody holds or an existing view keeps alive. -/
def kept (reg : Registry α) (held : List NodeId) : List NodeId :=
  held ++ (reg.nodes.toList.filter Node.alive).flatMap Node.keeps

/-- Ends the existence of every view that nothing keeps. -/
def sweep (reg : Registry α) (held : List NodeId) : Registry α :=
  let kept := reg.kept held
  { reg with nodes := reg.nodes.mapIdx fun i n => { n with alive := n.alive && kept.contains i } }

/-- How many views exist. -/
def aliveCount (reg : Registry α) : Nat :=
  reg.nodes.countP Node.alive

/-- Sweeps until nothing changes, in at most `rounds` rounds. -/
def settle (held : List NodeId) : Nat → Registry α → Registry α
  | 0, reg => reg
  | rounds + 1, reg =>
    let swept := reg.sweep held
    if swept.aliveCount = reg.aliveCount then reg else settle held rounds swept

/-- Ends the existence of all views that nothing keeps. Each round but the last ends at least one,
so there are never more rounds than views. -/
def release (reg : Registry α) (held : List NodeId) : Registry α :=
  reg.settle held reg.nodes.size

end Registry

end OrderedBag
