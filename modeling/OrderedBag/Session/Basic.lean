import OrderedBag.Registry.Release
import OrderedBag.Session.Query

/-!
# Sessions

A session keeps a table of names and a registry. A command that fails leaves the table as it was,
and the registry as the failure left it. After each command, every view that is no longer kept is
released.

* `Session.step` — carries out one command
* `Session.run` — carries out a list of commands
-/

namespace OrderedBag

variable {α : Type}

/-- Names, and what they stand for. -/
structure Session (α : Type) where
  /-- The table of names. -/
  table : Table α
  /-- Contents and views. -/
  registry : Registry α

/-- What there is to tell after a command. -/
structure Report (α : Type) where
  /-- The answer, or why there is none. -/
  outcome : Except Failure (Answer α)
  /-- What the command wrote to the log. -/
  log : List Record
  /-- The entries of each watched bag after the command. -/
  watched : List (Option (Except Failure (List (Entry α))))

/-- Whether two names stand for the same bag, or for the same set of a bag. -/
def Table.same (t : Table α) (first second : String) : Action α Bool :=
  match t.find? first with
  | some (.elements s) => do
    let u ← t.elements second
    return s.link == u.link && s.view.node? == u.view.node?
  | some (.entries s) => do
    let u ← t.entries second
    return s.view.node? == u.view.node?
  | _ => do
    let v ← t.bag first
    let w ← t.bag second
    return v.node? == w.node?

variable [Ord α] [Std.TransOrd α] [Shown α]

/-- Carries out a command: its answer, and the table after it. -/
def Command.run (t : Table α) : Command α → Action α (Answer α × Table α)
  | bind name making => return (.done, t.bind name (← making.run t))
  | drop name => return (.done, t.erase name)
  | isAlive name => do
    let v ← t.weak name
    return (.flag (v.node?.any (← get).isAlive), t)
  | same first second => return (.flag (← t.same first second), t)
  | next name n => do
    let w ← t.walk name
    let (items, w) := w.nexts (← get).contents n
    return (.items items, t.bind name (.walk w))
  | change name c => return (← c.run t (← t.source name), t)
  | askBag name q => return (← q.run (← t.bag name), t)
  | askElements name q => return (← q.run (← t.elements name), t)
  | askEntries name q => return (← q.run (← t.entries name), t)
  | askComparator name q => return (← q.run t (← t.comparator name), t)

namespace Session

/-- No names, no bags. -/
def empty (a : Arithmetic := .checked) : Session α :=
  ⟨[], .empty a⟩

omit [Ord α] [Std.TransOrd α] [Shown α] in
/-- The entries of a bag that a name stands for. -/
def watch (s : Session α) (name : String) : Option (Except Failure (List (Entry α))) :=
  match s.table.find? name with
  | some (.bag v) => some (v.entries s.registry)
  | _ => none

/-- Carries out one command, and then releases what nothing keeps. -/
def step (watched : List String) (s : Session α) (c : Command α) : Report α × Session α :=
  let (outcome, reg) := (c.run s.table).perform { s.registry with log := [] }
  let table := (outcome.toOption.map Prod.snd).getD s.table
  let after : Session α := ⟨table, reg.release table.held⟩
  (⟨outcome.map Prod.fst, reg.log, watched.map after.watch⟩, after)

/-- Carries out commands one after the other. -/
def run (watched : List String) : Session α → List (Command α) → List (Report α) × Session α
  | s, [] => ([], s)
  | s, c :: cs =>
    let (report, s) := s.step watched c
    let (reports, s) := run watched s cs
    (report :: reports, s)

end Session

end OrderedBag
