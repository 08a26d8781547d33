import Mathlib
import OrderedBag.Proofs.TwinSessions

/-!
# Sources that derive all that they answer

An indexed source looks everything up in its entries, from either end. A sequential source offers a
live cursor from the first entry on, and derives the rest: the last entries, what lies in an
interval, what an element set is asked. A client that leaves no iterator open cannot tell the one
from the other, whatever it changes, and through whichever views it looks, unless it asks whether
there is anything where the running total of the indexed source has wrapped around to zero.

* `Turn.onSources` — the same turn, where sources answer in a given way
* `Session.sequential_tells_indexed` — a client is told the same, turn after turn
-/

namespace OrderedBag

variable {α : Type}

/-! ## The way in which sources answer -/

/-- The command, by which sources are made that answer in the given way. -/
def Command.onSources (a : Access) : Command α → Command α
  | bind name (.source _ sorting) => bind name (.source a sorting)
  | c => c

/-- The turn, in which sources are made that answer in the given way. -/
def Turn.onSources (a : Access) : Turn α → Turn α
  | command c => command (c.onSources a)
  | visit name m n => visit name m n

theorem Command.valid_onSources {c : Command α} (hc : c.Valid) (a : Access) :
    (c.onSources a).Valid := by
  unfold onSources
  split
  · exact hc
  · exact hc

theorem Turn.valid_onSources {u : Turn α} (hu : u.Valid) (a : Access) : (u.onSources a).Valid := by
  cases u with
  | command c =>
    intro c' hc'
    obtain rfl := List.mem_singleton.mp hc'
    exact Command.valid_onSources (hu c (List.mem_singleton_self c)) a
  | visit name m n => exact hu

theorem Turn.within_onSources {N : String → Prop} {u : Turn α} (hu : u.Within N) (a : Access) :
    (u.onSources a).Within N := by
  cases u with
  | command c =>
    simp only [onSources, Command.onSources]
    split
    · exact hu
    · exact hu
  | visit name m n => exact hu

/-- Everything is looked at, and an indexed source may have a sequential twin. -/
def Scope.everything : Scope α where
  looksAt _ _ := true
  alike a a' := a' = a ∨ a = .indexed ∧ a' = .sequential
  alike_refl _ := .inl rfl
  alike_core := by
    rintro a a' (rfl | ⟨rfl, rfl⟩) <;> rfl
  alike_indexed h := h.elim Eq.symm And.left

theorem Command.onSources_alike (c : Command α) :
    (c.onSources .indexed).Alike .everything (c.onSources .sequential) := by
  unfold onSources
  split
  · exact .sources _ _ (.inr ⟨rfl, rfl⟩) (by decide)
  · rename_i hsource
    exact .same fun name sorting heq => hsource name .detached sorting heq

theorem Turn.onSources_alike (u : Turn α) :
    (u.onSources .indexed).Alike .everything (u.onSources .sequential) := by
  cases u with
  | command c => exact .command c.onSources_alike
  | visit name m n => exact .visit name m n

/-! ## Telling sources apart -/

namespace Session

/-- Before anything was made there is no difference. -/
theorem paired_empty (S : Scope α) (hS : ∀ b x, S b x = true) (N : String → Prop) :
    (empty .wrapping : Session α).Paired S N (empty .wrapping) where
  sound := sound_empty
  sound' := sound_empty
  registry := .refl S rfl
  core := rfl
  shared := fun name _ h hfind => by cases hfind
  unmade := fun b _ => hS b

variable [Ord α] [Std.TransOrd α] [Shown α]

/-- The same turns, where sources look everything up and where they derive it. -/
theorem Paired.play_onSources {N : String → Prop} {s s' : Session α}
    (h : s.Paired .everything N s') {us : List (Turn α)} (hv : ∀ u ∈ us, u.Valid)
    (hin : ∀ u ∈ us, u.Within N) (watched : List String) :
    TellAlike watched s s' (us.map (Turn.onSources .indexed))
        (us.map (Turn.onSources .sequential)) ∧
      (s.play watched (us.map (Turn.onSources .indexed))).2.Paired .everything N
        (s'.play watched (us.map (Turn.onSources .sequential))).2 := by
  have halike : List.Forall₂ (Turn.Alike .everything) (us.map (Turn.onSources .indexed))
      (us.map (Turn.onSources .sequential)) := by
    rw [List.forall₂_map_left_iff, List.forall₂_map_right_iff, List.forall₂_same]
    exact fun u _ => u.onSources_alike
  have hvalid (a : Access) : ∀ u ∈ us.map (Turn.onSources a), u.Valid :=
    List.forall_mem_map.mpr fun u hu => Turn.valid_onSources (hv u hu) a
  have hwithin : ∀ u ∈ us.map (Turn.onSources .indexed), u.Within N :=
    List.forall_mem_map.mpr fun u hu => Turn.within_onSources (hin u hu) .indexed
  exact h.play halike (hvalid .indexed) (hvalid .sequential) hwithin watched

/-- A client that leaves no iterator open is told the same by sources that look everything up and by
sources that derive it: what it is answered in each turn, and what its names show in the end. Only
if it asks whether a view is empty, and the source that looks everything up miscounts there, may it
be told that there is nothing, and by the other source that there is something. -/
theorem sequential_tells_indexed {us : List (Turn α)} (hv : ∀ u ∈ us, u.Valid)
    (hin : ∀ u ∈ us, u.Within fun _ => True) (watched : List String) :
    TellAlike watched (empty .wrapping) (empty .wrapping) (us.map (Turn.onSources .indexed))
        (us.map (Turn.onSources .sequential)) ∧
      ∀ name, ((empty .wrapping).play watched (us.map (Turn.onSources .sequential))).2.watch name =
        ((empty .wrapping).play watched (us.map (Turn.onSources .indexed))).2.watch name := by
  have hpaired : (empty .wrapping : Session α).Paired .everything (fun _ => True)
      (empty .wrapping) := paired_empty .everything (fun _ _ => rfl) _
  obtain ⟨htold, hend⟩ := hpaired.play_onSources hv hin watched
  exact ⟨htold, fun name => hend.watch trivial⟩

/-- Fills a source, looks at a part of it backwards, removes from there and from the source, and
asks for an interval that has no elements. -/
def removals : List (Turn Int) :=
  [.command (.bind "s" (.source .indexed (.evaluated .natural))),
    .command (.change "s" (.extend [5, 1, 3, 3])),
    .command (.bind "h" (.view "s" (.head ⟨3, .inclusive⟩))),
    .command (.bind "d" (.view "h" .reversed)),
    .visit "i" (.walk "d" (.entries .ascending)) 3,
    .command (.bind "e" (.elementSet "d")),
    .command (.askElements "e" (.poll .ascending)),
    .command (.askBag "s" (.poll .descending)),
    .command (.askBag "h" .size),
    .command (.bind "x" (.view "h" (.sub ⟨2, .inclusive⟩ ⟨1, .inclusive⟩)))]

theorem sequential_tells_indexed_removals :
    ((empty .wrapping).play [] (removals.map (Turn.onSources .sequential))).1.map Report.outcome =
        [.ok .done, .ok .done, .ok .done, .ok .done, .ok .done,
          .ok (.items [some (.entry ⟨3, 2⟩), some (.entry ⟨1, 1⟩), none]), .ok .done, .ok .done,
          .ok (.maybeElement (some 3)), .ok (.maybeEntry (some ⟨5, 1⟩)), .ok (.number 1),
          .error .invalidRange] ∧
      ((empty .wrapping).play [] (removals.map (Turn.onSources .sequential))).1.map
          Report.outcome =
        ((empty .wrapping).play [] (removals.map (Turn.onSources .indexed))).1.map
          Report.outcome := by
  have hvalid : ∀ u ∈ removals, u.Valid := by
    simp [removals, Turn.Valid, Turn.commands, Command.Valid, Making.Valid, Change.Valid]
  have hwithin : ∀ u ∈ removals, u.Within fun _ => True := by
    simp [removals, Turn.Within, Command.UsesIterator, Making.OpensIterator]
  have hnever : ∀ u ∈ removals.map (Turn.onSources .indexed), ∀ c ∈ u.commands,
      ∀ t, c.probed? t = none := by
    simp [removals, Turn.onSources, Command.onSources, Turn.commands, Command.probed?]
  exact ⟨by cbv, (sequential_tells_indexed hvalid hwithin []).1.outcomes_eq hnever⟩

/-- A source that looks everything up says that it is empty when its total has come to zero, and one
that derives it lists the same entries and says that it is not. -/
theorem not_sequential_tells_indexed_overfull :
    let filled (a : Arithmetic) := (overfilling a).map Turn.command
    let asked : List (Turn Int) :=
      [.command (.askBag "s" (.entries .ascending)), .command (.askBag "s" .isEmpty)]
    let told (a : Arithmetic) (b : Access) := (((empty a).play []
      ((filled a).map (Turn.onSources b))).2.play [] asked).1.map Report.outcome
    told .wrapping .indexed =
        [.ok (.entries [⟨1, maxCount⟩, ⟨2, 1⟩]), .ok (.flag true)] ∧
      told .wrapping .sequential =
        [.ok (.entries [⟨1, maxCount⟩, ⟨2, 1⟩]), .ok (.flag false)] ∧
      told .checked .indexed = [.ok (.entries [⟨2, 1⟩]), .ok (.flag true)] ∧
      told .checked .sequential = [.ok (.entries [⟨2, 1⟩]), .ok (.flag false)] :=
  ⟨by decide +kernel, by decide +kernel, by decide +kernel, by decide +kernel⟩

end Session

end OrderedBag
