import OrderedBag.Proofs.Answers
import OrderedBag.Proofs.Sessions

/-!
# Telling whether there is anything

An indexed source looks at its running total to tell whether it is empty. If it has entries, and
their counts add up to a number that wraps around to zero, then it says that it has none, and so
does every view that hands the question on to it. Whoever puts the question to such a view is
misled. Nothing else that is asked, and no view of an interval, is concerned.

* `Command.probed?` — the view of which a command asks whether it is empty
* `Session.Misled` — the view miscounts, and says that it has no entry
* `Session.TellsDue` — what is told is what is due, unless the question is misled
* `BagQuery.tellsDue`, `ElementQuery.tellsDue`, `EntryQuery.tellsDue` — so it is with every question
-/

namespace OrderedBag

variable {α : Type}

/-! ## Questions for emptiness -/

namespace Command

/-- The view of which a command asks whether it is empty. -/
def probed? (t : Table α) : Command α → Option (View α)
  | askBag name .isEmpty =>
    match t.find? name with
    | some (.bag v) => some v
    | _ => none
  | askElements name .isEmpty =>
    match t.find? name with
    | some (.elements u) => some u.view
    | _ => none
  | askEntries name .isEmpty =>
    match t.find? name with
    | some (.entries u) => some u.view
    | _ => none
  | _ => none

variable {t : Table α} {name : String} {v : View α}

theorem probed?_askBag {q : BagQuery α} :
    (askBag name q).probed? t = some v ↔ q = .isEmpty ∧ t.find? name = some (.bag v) := by
  cases q <;> simp only [probed?, reduceCtorEq, false_and, true_and]
  split <;> simp_all

theorem probed?_askElements {q : ElementQuery α} :
    (askElements name q).probed? t = some v ↔
      q = .isEmpty ∧ ∃ u, t.find? name = some (.elements u) ∧ u.view = v := by
  cases q <;> simp only [probed?, reduceCtorEq, false_and, true_and]
  split <;> simp_all

theorem probed?_askEntries {q : EntryQuery α} :
    (askEntries name q).probed? t = some v ↔
      q = .isEmpty ∧ ∃ u, t.find? name = some (.entries u) ∧ u.view = v := by
  cases q <;> simp only [probed?, reduceCtorEq, false_and, true_and]
  split <;> simp_all

end Command

namespace Session

variable {s : Session α} {c : Command α}

/-- The command asks whether a view is empty which miscounts. -/
def Misled (s : Session α) (c : Command α) : Prop :=
  ∃ v, c.probed? s.table = some v ∧ v.Miscounts s.registry.contents

/-- What a name stands for has a node, and so has the view of a set. -/
theorem Sound.houses_of_probed (hs : s.Sound) {v : View α} (h : c.probed? s.table = some v) :
    s.registry.Houses v := by
  cases c with
  | askBag name q => exact (hs.live.find? (Command.probed?_askBag.mp h).2).1
  | askElements name q =>
    obtain ⟨-, u, hname, rfl⟩ := Command.probed?_askElements.mp h
    exact (hs.live.find? hname).1
  | askEntries name q =>
    obtain ⟨-, u, hname, rfl⟩ := Command.probed?_askEntries.mp h
    exact (hs.live.find? hname).1
  | _ => cases h

/-- Fills a source until the running total that it keeps is zero, though it has entries. If totals
wrap around, two insertions do. If they are checked, the second insertion fails after its entry was
stored, and the first entry takes the whole total away when it goes. -/
def overfilling : Arithmetic → List (Command Int)
  | .wrapping => [.bind "s" (.source .indexed (.evaluated .natural)),
      .change "s" (.insertMany 1 maxCount), .change "s" (.insertMany 2 1)]
  | .checked => [.bind "s" (.source .indexed (.evaluated .natural)),
      .change "s" (.insertMany 1 maxCount), .change "s" (.insertMany 2 1),
      .change "s" (.removeAll 1)]

/-- A session with a source that miscounts. -/
def overfull (a : Arithmetic) : Session Int :=
  (run [] (empty a) (overfilling a)).2

/-! ## What is told, and what is due -/

/-- What a command is told is what is due, unless it is misled. Then it is told that there is
nothing, and there is something. -/
structure TellsDue (s : Session α) (c : Command α) (told due : Except Failure (Answer α)) :
    Prop where
  quiet : ¬ s.Misled c → told = due
  misled : s.Misled c → told = .ok (.flag true) ∧ due = .ok (.flag false)

/-- Nobody is misled who does not ask whether there is anything. -/
theorem tellsDue_of_not_misled (h : ¬ s.Misled c) (o : Except Failure (Answer α)) :
    s.TellsDue c o o :=
  ⟨fun _ => rfl, fun hm => (h hm).elim⟩

/-- What a view says of itself, and what it shows. -/
theorem Sound.tellsDue_vacant (hs : s.Sound) {v : View α} (hv : c.probed? s.table = some v) :
    s.TellsDue c (.ok (.flag (v.vacant s.registry.contents)))
      (.ok (.flag (v.listing s.registry.contents).isEmpty)) := by
  have hvalid := (hs.registry.stocks_root (hs.houses_of_probed hv)).2
  have hprobed {w : View α} (hw : c.probed? s.table = some w) : w = v :=
    Option.some.inj (hw.symm.trans hv)
  constructor
  · intro hquiet
    rw [(View.vacant_eq_iff hvalid).mpr fun hm => hquiet ⟨v, hv, hm⟩]
  · rintro ⟨w, hw, hm⟩
    obtain rfl := hprobed hw
    rw [(View.vacant_iff hvalid).mpr (.inr hm), List.isEmpty_eq_false_iff.mpr hm.listing_ne_nil]
    exact ⟨rfl, rfl⟩

end Session

section

variable [Shown α] {s : Session α} {name : String}

open Session

/-- A bag says whether it is empty, and all else that it answers is due. -/
theorem BagQuery.tellsDue (hs : s.Sound) {v : View α} (hname : s.table.find? name = some (.bag v))
    (q : BagQuery α) (c : Comparator α) (es : List (Entry α)) :
    s.TellsDue (.askBag name q) (q.answer c es (v.vacant s.registry.contents))
      (q.answer c es (v.listing s.registry.contents).isEmpty) := by
  cases q with
  | isEmpty => exact hs.tellsDue_vacant (Command.probed?_askBag.mpr ⟨rfl, hname⟩)
  | _ =>
    exact tellsDue_of_not_misled (fun ⟨w, hw, _⟩ => by cases (Command.probed?_askBag.mp hw).1) _

theorem ElementQuery.tellsDue (hs : s.Sound) {u : ElementSet α}
    (hname : s.table.find? name = some (.elements u)) (q : ElementQuery α) (c : Comparator α)
    (es : List (Entry α)) :
    s.TellsDue (.askElements name q) (q.answer c es (u.view.vacant s.registry.contents))
      (q.answer c es (u.view.listing s.registry.contents).isEmpty) := by
  cases q with
  | isEmpty => exact hs.tellsDue_vacant (Command.probed?_askElements.mpr ⟨rfl, u, hname, rfl⟩)
  | _ =>
    exact tellsDue_of_not_misled
      (fun ⟨w, hw, _⟩ => by cases (Command.probed?_askElements.mp hw).1) _

theorem EntryQuery.tellsDue (hs : s.Sound) {u : EntrySet α}
    (hname : s.table.find? name = some (.entries u)) (q : EntryQuery α) (c : Comparator α)
    (es : List (Entry α)) :
    s.TellsDue (.askEntries name q) (.ok (q.answer c es (u.view.vacant s.registry.contents)))
      (.ok (q.answer c es (u.view.listing s.registry.contents).isEmpty)) := by
  cases q with
  | isEmpty => exact hs.tellsDue_vacant (Command.probed?_askEntries.mpr ⟨rfl, u, hname, rfl⟩)
  | _ =>
    exact tellsDue_of_not_misled
      (fun ⟨w, hw, _⟩ => by cases (Command.probed?_askEntries.mp hw).1) _

end

end OrderedBag
