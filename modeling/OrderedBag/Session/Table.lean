import OrderedBag.Session.Command

/-!
# The table of names

Which handle each name of a session stands for. Binding a name again replaces what it stood for.
-/

namespace OrderedBag

variable {α : Type}

/-- The names in use, with their handles. -/
abbrev Table (α : Type) := List (String × Handle α)

namespace Table

/-- The handle that a name stands for. -/
def find? (t : Table α) (name : String) : Option (Handle α) :=
  List.lookup name t

/-- The table without a name. -/
def erase (t : Table α) (name : String) : Table α :=
  t.filter fun entry => entry.1 != name

/-- The table in which a name stands for a handle, and for nothing else. -/
def bind (t : Table α) (name : String) (h : Handle α) : Table α :=
  (name, h) :: t.erase name

/-- The views that the handles hold. -/
def held (t : Table α) : List NodeId :=
  t.filterMap fun entry => entry.2.held

/-! ## Handles of one kind -/

/-- The handle of a name, which must be of the kind that `pick` accepts. -/
def expect {β : Type} (t : Table α) (pick : Handle α → Option β) (name : String) : Action α β :=
  match (t.find? name).bind pick with
  | some b => return b
  | none => throw (.unsuitableHandle name)

/-- The bag that a name stands for. -/
def bag (t : Table α) : String → Action α (View α) :=
  t.expect fun
    | .bag v => some v
    | _ => none

/-- The source that a name stands for. -/
def source (t : Table α) : String → Action α (Source α) :=
  t.expect fun
    | .bag (.source s) => some s
    | _ => none

/-- The element set that a name stands for. -/
def elements (t : Table α) : String → Action α (ElementSet α) :=
  t.expect fun
    | .elements s => some s
    | _ => none

/-- The entry set that a name stands for. -/
def entries (t : Table α) : String → Action α (EntrySet α) :=
  t.expect fun
    | .entries s => some s
    | _ => none

/-- The iterator that a name stands for. -/
def walk (t : Table α) : String → Action α (Walk α) :=
  t.expect fun
    | .walk w => some w
    | _ => none

/-- The comparator that a name stands for. -/
def comparator (t : Table α) : String → Action α (Comparator α) :=
  t.expect fun
    | .comparator c => some c
    | _ => none

/-- The weak reference that a name stands for. -/
def weak (t : Table α) : String → Action α (View α) :=
  t.expect fun
    | .weak v => some v
    | _ => none

end Table

end OrderedBag
