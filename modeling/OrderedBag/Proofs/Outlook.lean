import OrderedBag.Proofs.Emptiness
import OrderedBag.Proofs.NestedViews

/-!
# Outlooks

Someone who explores a bag makes views and sets from it, asks them, and removes entries through
them. Nothing else than the order of the bag and the list of its entries decides what there is to
see. An outlook is made of these two and of the names that have been given, each with the steps that
lead to it; there are no nodes, no references and no source in it.

* `Exploration` — what an explorer does
* `Outlook.step`, `Outlook.run` — what there is to see
-/

namespace OrderedBag

variable {α : Type}

/-! ## Explorations -/

/-- How an explorer makes a view or a set from another one. -/
inductive Derivation (α : Type)
  /-- A view of a bag. -/
  | view (bag : String) (step : ViewStep α)
  /-- The element set of a bag. -/
  | elementSet (bag : String)
  /-- The entry set of a bag. -/
  | entrySet (bag : String)
  /-- A set derived from an element set. -/
  | elements (set : String) (step : ElementStep α)
  /-- The bag behind an element set. -/
  | bagOfElements (set : String)
  /-- The bag behind an entry set. -/
  | bagOfEntries (set : String)

/-- One thing that an explorer does. -/
inductive Exploration (α : Type)
  /-- Makes something and gives it a name. -/
  | derive (new : String) (d : Derivation α)
  /-- Asks a bag. -/
  | askBag (bag : String) (q : BagQuery α)
  /-- Asks an element set. -/
  | askElements (set : String) (q : ElementQuery α)
  /-- Asks an entry set. -/
  | askEntries (set : String) (q : EntryQuery α)

namespace Derivation

/-- The making of the handle. -/
def making : Derivation α → Making α
  | view bag st => .view bag st
  | elementSet bag => .elementSet bag
  | entrySet bag => .entrySet bag
  | elements set st => .elements set st
  | bagOfElements set => .bagOfElements set
  | bagOfEntries set => .bagOfEntries set

/-- The name of what it is made from. -/
def origin : Derivation α → String
  | view name _ | elementSet name | entrySet name | elements name _ | bagOfElements name
  | bagOfEntries name => name

end Derivation

namespace Exploration

/-- The command. -/
def command : Exploration α → Command α
  | derive new d => .bind new d.making
  | askBag bag q => .askBag bag q
  | askElements set q => .askElements set q
  | askEntries set q => .askEntries set q

/-- The name that is asked. -/
def asked : Exploration α → String
  | derive _ d => d.origin
  | askBag name _ | askElements name _ | askEntries name _ => name

/-- The name that is given. -/
def new? : Exploration α → Option String
  | derive new _ => some new
  | askBag _ _ | askElements _ _ | askEntries _ _ => none

theorem valid_command (e : Exploration α) : e.command.Valid := by
  cases e with
  | derive new d => cases d <;> trivial
  | askBag bag q => trivial
  | askElements set q => trivial
  | askEntries set q => trivial

end Exploration

/-! ## Outlooks -/

/-- What a name shows: a bag or a set, and the steps that lead to it. -/
inductive Showing (α : Type)
  /-- A bag. -/
  | bag (path : List (ViewStep α))
  /-- An element set. -/
  | elements (path : List (ViewStep α))
  /-- An entry set. -/
  | entries (path : List (ViewStep α))

/-- A bag as it is explored. -/
structure Outlook (α : Type) where
  /-- The order of the bag. -/
  comparator : Comparator α
  /-- Its entries, in order. -/
  entries : List (Entry α)
  /-- What the names show. -/
  names : String → Option (Showing α)

namespace Outlook

/-- The order at the end of some steps. -/
def order (o : Outlook α) (path : List (ViewStep α)) : Comparator α :=
  o.comparator.towards (ViewStep.heading path)

/-- The entries that are shown at the end of some steps. -/
def listing (o : Outlook α) (path : List (ViewStep α)) : List (Entry α) :=
  (ViewStep.heading path).orient (o.entries.filter fun e =>
    ViewStep.satisfies o.comparator path e.element)

/-- The steps that lead to a name, which must show something of the kind that `pick` accepts. -/
def expect (o : Outlook α) (pick : Showing α → Option (List (ViewStep α))) (name : String) :
    Except Failure (List (ViewStep α)) :=
  match (o.names name).bind pick with
  | some path => .ok path
  | none => .error (.unsuitableHandle name)

/-- The steps that lead to a bag. -/
def bag (o : Outlook α) : String → Except Failure (List (ViewStep α)) :=
  o.expect fun
    | .bag path => some path
    | _ => none

/-- The steps that lead to an element set. -/
def elements (o : Outlook α) : String → Except Failure (List (ViewStep α)) :=
  o.expect fun
    | .elements path => some path
    | _ => none

/-- The steps that lead to an entry set. -/
def entrySet (o : Outlook α) : String → Except Failure (List (ViewStep α)) :=
  o.expect fun
    | .entries path => some path
    | _ => none

/-- One step further, unless it is refused. -/
def further (o : Outlook α) (path : List (ViewStep α)) (st : ViewStep α) :
    Except Failure (List (ViewStep α)) :=
  if st.refused (o.order path) then .error .invalidRange else .ok (path ++ [st])

/-- What is derived. -/
def derive (o : Outlook α) : Derivation α → Except Failure (Showing α)
  | .view name st => do return .bag (← o.further (← o.bag name) st)
  | .elementSet name => do return .elements (← o.bag name)
  | .entrySet name => do return .entries (← o.bag name)
  | .elements name st => do return .elements (← o.further (← o.elements name) st.onView)
  | .bagOfElements name => do return .bag (← o.elements name)
  | .bagOfEntries name => do return .bag (← o.entrySet name)

/-- A name is given. -/
def bind (o : Outlook α) (name : String) (x : Showing α) : Outlook α :=
  { o with names := fun other => if other = name then some x else o.names other }

/-- An entry goes. -/
def without (o : Outlook α) : Option (Entry α) → Outlook α
  | none => o
  | some e =>
    { o with entries := o.entries.filter fun f =>
        !(o.comparator.compare f.element e.element).isEq }

@[simp] theorem names_without (o : Outlook α) (e? : Option (Entry α)) :
    (o.without e?).names = o.names := by
  cases e? <;> rfl

variable [Shown α]

/-- What an exploration tells, and what there is to see afterwards. -/
def step (o : Outlook α) : Exploration α → Except Failure (Answer α) × Outlook α
  | .derive new d =>
    match o.derive d with
    | .ok x => (.ok .done, o.bind new x)
    | .error e => (.error e, o)
  | .askBag name q =>
    match o.bag name with
    | .ok path =>
      (q.answer (o.order path) (o.listing path) (o.listing path).isEmpty,
        o.without (q.victim (o.order path) (o.listing path)))
    | .error e => (.error e, o)
  | .askElements name q =>
    match o.elements name with
    | .ok path =>
      (q.answer (o.order path) (o.listing path) (o.listing path).isEmpty,
        o.without (q.victim (o.order path) (o.listing path)))
    | .error e => (.error e, o)
  | .askEntries name q =>
    match o.entrySet name with
    | .ok path =>
      (.ok (q.answer (o.order path) (o.listing path) (o.listing path).isEmpty), o)
    | .error e => (.error e, o)

/-- Only the name that is given comes to show something else. -/
theorem names_step (o : Outlook α) {e : Exploration α} {name : String} (h : e.new? ≠ some name) :
    (o.step e).2.names name = o.names name := by
  cases e with
  | derive new d =>
    have hne : name ≠ new := fun heq => h (congrArg some heq.symm)
    rw [step]
    cases o.derive d with
    | ok x => exact if_neg hne
    | error e => rfl
  | askBag bag q =>
    rw [step]
    cases o.bag bag with
    | ok path => exact congrFun (o.names_without _) name
    | error e => rfl
  | askElements set q =>
    rw [step]
    cases o.elements set with
    | ok path => exact congrFun (o.names_without _) name
    | error e => rfl
  | askEntries set q =>
    rw [step]
    cases o.entrySet set <;> rfl

/-- What a sequence of explorations tells. -/
def run : Outlook α → List (Exploration α) → List (Except Failure (Answer α)) × Outlook α
  | o, [] => ([], o)
  | o, e :: es =>
    let (answer, o) := o.step e
    let (answers, o) := run o es
    (answer :: answers, o)

/-- A name that is not given keeps showing what it shows. -/
theorem names_run (o : Outlook α) {es : List (Exploration α)} {name : String}
    (h : name ∉ es.filterMap Exploration.new?) : (o.run es).2.names name = o.names name := by
  induction es generalizing o with
  | nil => rfl
  | cons e es ih =>
    have he : e.new? ≠ some name := fun he =>
      h (List.mem_filterMap.mpr ⟨e, List.mem_cons_self, he⟩)
    have hes : name ∉ es.filterMap Exploration.new? := by
      intro hmem
      obtain ⟨e', he', hgiven⟩ := List.mem_filterMap.mp hmem
      exact h (List.mem_filterMap.mpr ⟨e', List.mem_cons_of_mem _ he', hgiven⟩)
    exact (ih (o.step e).2 hes).trans (o.names_step he)

end Outlook

end OrderedBag
