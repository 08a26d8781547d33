import OrderedBag.Proofs.Tally
import OrderedBag.Proofs.TwinQueries

/-!
# Counts that would become too large

An insertion fails exactly when the count of its entry would no longer be a count, and then nothing
has happened: not to the entries, not to the total, and not to anything that is asked afterwards. An
extension that meets such an element has inserted the elements before it, and no other.

* `Histogram.insertStepwise_eq` — the check comes before the first update
* `Source.extend_stops`, `Source.extend_counts` — what an extension has inserted, if it fails and if
  it succeeds
* `Session.Untouched` — a session that is as it was, and will answer as it would have
* `Session.Reachable.untouched` — a command that fails without a change leaves no trace
* `Session.overflow_spec` — when an insertion fails in a run, and what it leaves
-/

namespace OrderedBag

open Std OrderedBag.Action

variable {α : Type} {c : Comparator α}

/-! ## One insertion -/

namespace Histogram

/-- Writes the entry of `x` and then brings the total up to date. The new count of an entry that was
there before is checked first. -/
def insertOnto (c : Comparator α) (x : α) (n : Nat) :
    Option Nat → ExceptT Failure (StateM (Histogram α)) (Option Nat)
  | none => do
    modify fun h => { h with entries := addTo c x n h.entries }
    modify fun h => { h with total := wrap (h.total + n) }
    return none
  | some count =>
    if maxCount < count + n then throw .entryOverflow
    else do
      modify fun h => { h with entries := addTo c x n h.entries }
      modify fun h => { h with total := wrap (h.total + n) }
      return some count

/-- Adds `n` occurrences of `x` step by step. What was written before a failure stays. -/
def insertStepwise (c : Comparator α) (x : α) (n : Nat) :
    ExceptT Failure (StateM (Histogram α)) (Option Nat) := do
  insertOnto c x n (((← get).find? c x).map Entry.count)

/-- The check comes before the first update, so a failure leaves everything as it was. -/
theorem insertStepwise_eq (c : Comparator α) (h : Histogram α) (x : α) {n : Nat}
    (hn : n ≤ maxCount) :
    (insertStepwise c x n).run.run h =
      match h.insert? c x n with
      | some h' => (.ok ((h.find? c x).map Entry.count), h')
      | none => (.error .entryOverflow, h) := by
  show (insertOnto c x n ((h.find? c x).map Entry.count)).run.run h = _
  unfold insert? multiplicity
  cases hfind : (h.find? c x).map Entry.count with
  | none =>
    rw [if_pos (by simpa using hn)]
    rfl
  | some count =>
    simp only [insertOnto]
    by_cases hroom : count + n ≤ maxCount
    · rw [if_neg (Nat.not_lt.mpr hroom), Option.getD_some, if_pos hroom]
      rfl
    · rw [if_pos (Nat.lt_of_not_le hroom), Option.getD_some, if_neg hroom]
      rfl

end Histogram

namespace Source

variable {s : Source α} {reg reg' : Registry α}

theorem insert_of_overflow (hw : reg.arithmetic = .wrapping) {x : α} {n : Nat}
    (h : maxCount < (reg.contents s.bag).multiplicity s.comparator x + n) :
    (s.insert x n).perform reg = (.error .entryOverflow, reg) := by
  rw [perform_insert hw, (Histogram.insert?_eq_none_iff _ _ x n).mpr h]

theorem insert_of_room (hw : reg.arithmetic = .wrapping) {x : α} {n : Nat}
    (h : (reg.contents s.bag).multiplicity s.comparator x + n ≤ maxCount) :
    (s.insert x n).perform reg = (.ok (s.previous? reg x), reg.setContents s.bag
      ⟨Histogram.addTo s.comparator x n (reg.contents s.bag).entries,
        wrap ((reg.contents s.bag).total + n)⟩) := by
  rw [perform_insert hw, Histogram.insert?, if_pos h]

/-- An insertion for which the entry has room changes one bag, and that one as told. -/
theorem insert_spec (hs : reg.Sound) (hh : reg.Houses (.source s)) {x : α} {n : Nat} (hn : 1 ≤ n)
    (h : (reg.contents s.bag).multiplicity s.comparator x + n ≤ maxCount) :
    ∃ reg', (s.insert x n).perform reg = (.ok (s.previous? reg x), reg') ∧ reg.Moves reg' ∧
      reg'.contents s.bag = ⟨Histogram.addTo s.comparator x n (reg.contents s.bag).entries,
        wrap ((reg.contents s.bag).total + n)⟩ ∧
      ∀ b, b ≠ s.bag → reg'.contents b = reg.contents b := by
  have hinsert := insert_of_room hs.wrapping h
  have hm := (insert_orderly hs hh x hn).1
  rw [hinsert] at hm
  refine ⟨_, hinsert, hm, ?_, fun b hb => ?_⟩
  · rw [Registry.contents_setContents, if_pos ⟨rfl, (hs.stocked.stocks s hh).1⟩]
  · rw [Registry.contents_setContents, if_neg fun hcond => hb hcond.1]

/-! ## Many insertions -/

/-- An extension that fails has inserted the elements before one that its entry cannot hold. -/
theorem extend_stops (hw : reg.arithmetic = .wrapping) {xs : List α} {e : Failure}
    (h : (s.extend xs).perform reg = (.error e, reg')) :
    e = .entryOverflow ∧ ∃ before x after, xs = before ++ x :: after ∧
      (s.extend before).perform reg = (.ok (), reg') ∧
      maxCount < (reg'.contents s.bag).multiplicity s.comparator x + 1 := by
  induction xs generalizing reg with
  | nil => cases h
  | cons x xs ih =>
    by_cases hx : maxCount < (reg.contents s.bag).multiplicity s.comparator x + 1
    · rw [extend, perform_bind_error (insert_of_overflow hw hx)] at h
      obtain ⟨he, rfl⟩ := Prod.mk.inj h
      exact ⟨(Except.error.inj he).symm, [], x, xs, rfl, rfl, hx⟩
    · have hinsert := insert_of_room hw (Nat.le_of_not_lt hx)
      rw [extend, perform_bind_ok hinsert] at h
      obtain ⟨he, before, y, after, rfl, hbefore, hy⟩ := ih (by exact hw) h
      refine ⟨he, x :: before, y, after, rfl, ?_, hy⟩
      rw [extend, perform_bind_ok hinsert]
      exact hbefore

/-- An extension counts its elements, and nothing else. -/
theorem extend_counts (hs : reg.Sound) (hh : reg.Houses (.source s)) {xs : List α}
    (h : (s.extend xs).perform reg = (.ok (), reg')) :
    (reg'.contents s.bag).total = wrap ((reg.contents s.bag).total + xs.length) ∧
      ∀ y, (reg'.contents s.bag).multiplicity s.comparator y =
        (reg.contents s.bag).multiplicity s.comparator y +
          xs.countP fun x => (s.comparator.compare x y).isEq := by
  induction xs generalizing reg with
  | nil =>
    obtain ⟨-, rfl⟩ := Prod.mk.inj h
    exact ⟨(wrap_of_le (hs.stocked.stocks s hh).2.total_le).symm, fun y => rfl⟩
  | cons x xs ih =>
    by_cases hx : maxCount < (reg.contents s.bag).multiplicity s.comparator x + 1
    · rw [extend, perform_bind_error (insert_of_overflow hs.wrapping hx)] at h
      cases h
    · obtain ⟨reg₁, hinsert, hm, hcontents, -⟩ :=
        insert_spec hs hh (Nat.le_refl 1) (Nat.le_of_not_lt hx)
      rw [extend, perform_bind_ok hinsert] at h
      have hvalid := (hs.stocked.stocks s hh).2
      have hvalid' := ((hs.moves hm).stocked.stocks s (hh.moves hm)).2
      obtain ⟨htotal, hcounts⟩ := ih (hs.moves hm) (hh.moves hm) h
      refine ⟨?_, fun y => ?_⟩
      · rw [htotal, hcontents, wrap_wrap_add, List.length_cons, Nat.add_assoc, Nat.add_comm 1]
      · rw [hcounts, Histogram.multiplicity_eq hvalid'.sorted, hcontents,
          Comparator.tally_addTo, ← Histogram.multiplicity_eq hvalid.sorted, List.countP_cons]
        omega

end Source

/-! ## Nothing is left to release -/

namespace Registry

variable {reg : Registry α} {held : List NodeId}

/-- If a round ends the existence of no view, a release changes nothing. -/
theorem release_of_settled (h : (reg.sweep held).aliveCount = reg.aliveCount) :
    reg.release held = reg := by
  unfold release
  cases reg.nodes.size with
  | zero => rfl
  | succ rounds => exact if_pos h

theorem settled_release (reg : Registry α) (held : List NodeId) :
    ((reg.release held).sweep held).aliveCount = (reg.release held).aliveCount :=
  settled_settle _ reg Array.countP_le_size

end Registry

theorem View.entries_withLog (v : View α) (reg : Registry α) (l : List Record) :
    v.entries (reg.withLog l) = v.entries reg := by
  unfold entries
  rw [scan_withLog]
  rfl

namespace Session

variable [Ord α] [TransOrd α] [Shown α] {s s' : Session α} {b : Source α} {name : String}

/-- Everything that a reachable session does not keep is released. -/
theorem Reachable.settled (h : s.Reachable) :
    (s.registry.sweep s.table.held).aliveCount = s.registry.aliveCount := by
  cases h with
  | initial => rfl
  | @next s hs c hc watched =>
    obtain ⟨t, reg, -, -, -, hafter⟩ := hs.sound.step_moves hc watched
    rw [hafter]
    exact Registry.settled_release reg t.held

/-- After a release there is nothing left to release. -/
theorem Reachable.release_fresh (h : s.Reachable) : s.fresh.release s.table.held = s.fresh :=
  Registry.release_of_settled h.settled

/-- A session is as it was before, whatever is asked of it. -/
structure Untouched (s s' : Session α) : Prop where
  /-- Every name stands for what it stood for, and so every iterator is where it was. -/
  table : s'.table = s.table
  /-- The entries of every bag are the same, and so is their total. -/
  contents : s'.registry.contents = s.registry.contents
  /-- Every view shows the same. -/
  shown : ∀ name, s'.watch name = s.watch name
  /-- Whatever is done later is answered alike, with the same log and the same entries shown. -/
  later : ∀ watched cs, (run watched s' cs).1 = (run watched s cs).1

/-- A command starts from the table and the registry, whatever the log tells. -/
theorem run_fst_congr (htable : s'.table = s.table) (hfresh : s'.fresh = s.fresh)
    (watched : List String) (cs : List (Command α)) :
    (run watched s' cs).1 = (run watched s cs).1 := by
  cases cs with
  | nil => rfl
  | cons c cs =>
    have hstep : s'.step watched c = s.step watched c := by
      have hfresh : { s'.registry with log := [] } = { s.registry with log := [] } := hfresh
      unfold step
      rw [htable, hfresh]
    show (s'.step watched c).1 :: (run watched (s'.step watched c).2 cs).1 = _
    rw [hstep]
    rfl

/-- A command that fails without a change leaves no trace. -/
theorem Reachable.untouched (h : s.Reachable) {c : Command α} {e : Failure}
    (hfails : (c.run s.table).perform s.fresh = (.error e, s.fresh)) (watched : List String) :
    s.Untouched (s.step watched c).2 := by
  have hafter : (s.step watched c).2 = ⟨s.table, s.fresh⟩ := by
    rw [(step_of_error watched hfails).2, h.release_fresh]
  rw [hafter]
  refine ⟨rfl, rfl, fun name => ?_, run_fst_congr rfl rfl⟩
  unfold watch Session.fresh
  simp only [View.entries_withLog]

/-- A change of a source leaves the table as it is. -/
theorem step_change {ch : Change α} {o : Except Failure (Answer α)} {reg : Registry α}
    (hname : s.table.find? name = some (.bag (.source b)))
    (h : (ch.run s.table b).perform s.fresh = (o, reg)) (watched : List String) :
    (s.step watched (.change name ch)).1.outcome = o ∧
      (s.step watched (.change name ch)).2 = ⟨s.table, reg.release s.table.held⟩ := by
  have hrun := perform_bind_ok (f := fun b => do return (← ch.run s.table b, s.table))
    (Table.perform_source hname s.fresh)
  cases o with
  | error e => exact step_of_error watched (hrun.trans (perform_bind_error h))
  | ok a => exact step_of_ok watched (hrun.trans (perform_bind_ok h))

end Session

/-- The elements that a change inserts one after the other: those of a list, or the occurrences in a
bag, which may be a view of the source that is changed. -/
inductive Change.Supplies (s : Session α) : Change α → List α → Prop
  | extend (xs : List α) : Supplies s (.extend xs) xs
  | absorb {name : String} {es : List (Entry α)} (h : s.watch name = some (.ok es)) :
      Supplies s (.absorb name) (es.flatMap Entry.occurrences)

theorem Change.Supplies.run_eq {s : Session α} (hs : s.Sound) {b : Source α}
    (hh : s.registry.Houses (.source b)) {ch : Change α} {xs : List α} (h : ch.Supplies s xs) :
    (ch.run s.table b).perform s.fresh = ((Change.extend xs).run s.table b).perform s.fresh := by
  cases h with
  | extend xs => rfl
  | absorb h => exact absorb_run_eq hs hh h

namespace Session

variable [Ord α] [TransOrd α] [Shown α] {s s' : Session α} {b : Source α} {name : String}
  {watched : List String}

/-- An insertion that fails leaves no trace. -/
theorem insertMany_fails (hs : s.Reachable) (hname : s.table.find? name = some (.bag (.source b)))
    {x : α} {n : Nat}
    (hover : maxCount < (s.registry.contents b.bag).multiplicity b.comparator x + n)
    (watched : List String) :
    (s.step watched (.change name (.insertMany x n))).1.outcome = .error .entryOverflow ∧
      s.Untouched (s.step watched (.change name (.insertMany x n))).2 := by
  have hinsert : (b.insert x n).perform s.fresh = (.error .entryOverflow, s.fresh) :=
    Source.insert_of_overflow hs.sound.fresh.wrapping hover
  have hrun : ((Change.insertMany x n).run s.table b).perform s.fresh =
      (.error .entryOverflow, s.fresh) := perform_bind_error hinsert
  have hcommand : ((Command.change name (.insertMany x n)).run s.table).perform s.fresh =
      (.error .entryOverflow, s.fresh) :=
    (perform_bind_ok (Table.perform_source hname s.fresh)).trans (perform_bind_error hrun)
  exact ⟨(step_of_error watched hcommand).1, hs.untouched hcommand watched⟩

/-- An insertion for which the entry has room adds the occurrences. -/
theorem insertMany_adds (hs : s.Reachable) (hname : s.table.find? name = some (.bag (.source b)))
    {x : α} {n : Nat}
    (hroom : (s.registry.contents b.bag).multiplicity b.comparator x + n ≤ maxCount)
    (watched : List String) :
    (s.step watched (.change name (.insertMany x n))).1.outcome =
        .ok (.maybeCount (b.previous? s.registry x)) ∧
      ((s.step watched (.change name (.insertMany x n))).2.registry.contents b.bag).total =
        wrap ((s.registry.contents b.bag).total + n) ∧
      ∀ y, ((s.step watched (.change name (.insertMany x n))).2.registry.contents
          b.bag).multiplicity b.comparator y =
        (s.registry.contents b.bag).multiplicity b.comparator y +
          if (b.comparator.compare x y).isEq then n else 0 := by
  have hh := (hs.sound.live.find? hname).1
  obtain ⟨hlt, hvalid⟩ := hs.sound.registry.stocked.stocks b hh
  have hinsert : (b.insert x n).perform s.fresh = _ :=
    Source.insert_of_room hs.sound.fresh.wrapping hroom
  have hrun : ((Change.insertMany x n).run s.table b).perform s.fresh = _ :=
    perform_bind_ok hinsert
  obtain ⟨hout, hafter⟩ := step_change hname hrun watched
  rw [hout, hafter]
  simp only [Registry.contents_release]
  rw [Registry.contents_setContents, if_pos ⟨rfl, hlt⟩]
  refine ⟨rfl, rfl, fun y => ?_⟩
  rw [Histogram.multiplicity_eq (Histogram.pairwise_addTo hvalid.sorted x n),
    Comparator.tally_addTo, Histogram.multiplicity_eq hvalid.sorted, Nat.add_comm]
  rfl

/-- The session `s'` to which an extension by `xs` leads that stops at `x`: what comes before it is
inserted, and no other. -/
structure Stopped (s : Session α) (b : Source α) (name : String) (watched : List String)
    (xs before : List α) (x : α) (s' : Session α) : Prop where
  /-- The elements that are inserted come first, and then `x`. -/
  split : ∃ rest, xs = before ++ x :: rest
  /-- To extend by them alone succeeds. -/
  succeeds : (s.step watched (.change name (.extend before))).1.outcome = .ok .done
  /-- It leads to the same session. -/
  same : s' = (s.step watched (.change name (.extend before))).2
  /-- Each of them is counted once in the total, which may wrap around. -/
  total : (s'.registry.contents b.bag).total =
    wrap ((s.registry.contents b.bag).total + before.length)
  /-- It is counted where it belongs. -/
  counts : ∀ y, (s'.registry.contents b.bag).multiplicity b.comparator y =
    (s.registry.contents b.bag).multiplicity b.comparator y +
      before.countP fun x => (b.comparator.compare x y).isEq
  /-- The entry of `x` cannot hold one more. -/
  overflow : maxCount < (s'.registry.contents b.bag).multiplicity b.comparator x + 1

/-- An extension that fails stops at an element that its entry cannot hold. -/
theorem change_stops (hs : s.Reachable) (hname : s.table.find? name = some (.bag (.source b)))
    {ch : Change α} {xs : List α} (hch : ch.Supplies s xs) {watched : List String} {e : Failure}
    (h : (s.step watched (.change name ch)).1.outcome = .error e) :
    e = .entryOverflow ∧
      ∃ before x, s.Stopped b name watched xs before x (s.step watched (.change name ch)).2 := by
  have hh := (hs.sound.live.find? hname).1
  have hrun := hch.run_eq hs.sound hh
  cases hp : (b.extend xs).perform s.fresh with
  | mk o reg =>
    cases o with
    | ok u =>
      rw [(step_change hname (hrun.trans (perform_bind_ok hp)) watched).1] at h
      cases h
    | error e' =>
      obtain ⟨hout, hafter⟩ := step_change hname (hrun.trans (perform_bind_error hp)) watched
      obtain rfl : e' = e := Except.error.inj (hout.symm.trans h)
      obtain ⟨rfl, before, x, rest, hsplit, hbefore, hover⟩ :=
        Source.extend_stops hs.sound.fresh.wrapping hp
      have hextend : ((Change.extend before).run s.table b).perform s.fresh = (.ok .done, reg) :=
        perform_bind_ok hbefore
      obtain ⟨hout', hafter'⟩ := step_change hname hextend watched
      obtain ⟨htotal, hcounts⟩ :=
        Source.extend_counts hs.sound.fresh (hh.moves s.moves_fresh) hbefore
      have hcontents : (s.step watched (.change name ch)).2.registry.contents = reg.contents := by
        rw [hafter, Registry.contents_release]
      refine ⟨rfl, before, x, ⟨rest, hsplit⟩, hout', hafter.trans hafter'.symm, ?_, ?_, ?_⟩
      · rw [hcontents]
        exact htotal
      · rw [hcontents]
        exact hcounts
      · rw [hcontents]
        exact hover

/-- What is true of the counts of a source when something is inserted. -/
structure Guarded (s : Session α) (b : Source α) (name : String) : Prop where
  /-- An insertion fails with the message of an overflow exactly if the entry could not hold the
  occurrences. -/
  fails_iff : ∀ x n watched,
    (∃ e, (s.step watched (.change name (.insertMany x n))).1.outcome = .error e ∧
        e.message = "Multiplicity counter has overflown") ↔
      maxCount < (s.registry.contents b.bag).multiplicity b.comparator x + n
  /-- Then it leaves no trace. -/
  untouched : ∀ x n watched,
    maxCount < (s.registry.contents b.bag).multiplicity b.comparator x + n →
    s.Untouched (s.step watched (.change name (.insertMany x n))).2
  /-- It fails before the first of its updates. -/
  unwritten : ∀ x n, n ≤ maxCount →
    maxCount < (s.registry.contents b.bag).multiplicity b.comparator x + n →
    (Histogram.insertStepwise b.comparator x n).run.run (s.registry.contents b.bag) =
      (.error .entryOverflow, s.registry.contents b.bag)
  /-- Otherwise it adds the occurrences, and nothing else, and tells how many there were. Only the
  total may wrap around. -/
  adds : ∀ x n watched,
    (s.registry.contents b.bag).multiplicity b.comparator x + n ≤ maxCount →
    (s.step watched (.change name (.insertMany x n))).1.outcome =
        .ok (.maybeCount (b.previous? s.registry x)) ∧
      ((s.step watched (.change name (.insertMany x n))).2.registry.contents b.bag).total =
        wrap ((s.registry.contents b.bag).total + n) ∧
      ∀ y, ((s.step watched (.change name (.insertMany x n))).2.registry.contents
          b.bag).multiplicity b.comparator y =
        (s.registry.contents b.bag).multiplicity b.comparator y +
          if (b.comparator.compare x y).isEq then n else 0
  /-- An extension that fails stops at an element that its entry cannot hold. -/
  stops : ∀ ch xs watched e, ch.Supplies s xs →
    (s.step watched (.change name ch)).1.outcome = .error e →
    e.message = "Multiplicity counter has overflown" ∧
      ∃ before x, s.Stopped b name watched xs before x (s.step watched (.change name ch)).2

/-- An insertion fails exactly if a count would become too large, and then nothing has happened. An
extension that fails has inserted the elements before the one at fault, and no other. -/
theorem overflow_spec (hs : s.Reachable) (hname : s.table.find? name = some (.bag (.source b))) :
    s.Guarded b name where
  fails_iff x n watched := by
    constructor
    · rintro ⟨e, hout, -⟩
      by_contra hroom
      rw [(insertMany_adds hs hname (Nat.le_of_not_lt hroom) watched).1] at hout
      cases hout
    · intro hover
      exact ⟨_, (insertMany_fails hs hname hover watched).1, rfl⟩
  untouched x n watched hover := (insertMany_fails hs hname hover watched).2
  unwritten x n hn hover := by
    rw [Histogram.insertStepwise_eq _ _ _ hn, (Histogram.insert?_eq_none_iff _ _ x n).mpr hover]
  adds _ _ watched hroom := insertMany_adds hs hname hroom watched
  stops ch xs watched e hch h := by
    obtain ⟨rfl, hstopped⟩ := change_stops hs hname hch h
    exact ⟨rfl, hstopped⟩

/-- The three numbers, of which the three has come as often as an entry can hold. -/
def threeFull : Session Int :=
  (threeReversed.step [] (.change "s" (.insertMany 3 (maxCount - 1)))).2

theorem threeFull_reachable : threeFull.Reachable :=
  threeReversed_reachable.next (c := .change "s" (.insertMany 3 (maxCount - 1)))
    ⟨by decide, by decide⟩ []

theorem overflow_spec_threeFull :
    (∃ e, (threeFull.step [] (.change "s" (.insertMany 3 1))).1.outcome = .error e ∧
        e.message = "Multiplicity counter has overflown") ∧
      threeFull.Untouched (threeFull.step [] (.change "s" (.insertMany 3 1))).2 ∧
      ∃ before x, threeFull.Stopped ⟨0, 0, ⟨0, .natural, false⟩, .indexed⟩ "s" [] [4, 3, 7] before x
        (threeFull.step [] (.change "s" (.extend [4, 3, 7]))).2 := by
  let b : Source Int := ⟨0, 0, ⟨0, .natural, false⟩, .indexed⟩
  have hs : threeFull.table.find? "s" = some (.bag (.source b)) := rfl
  have hover : maxCount < (threeFull.registry.contents b.bag).multiplicity b.comparator 3 + 1 := by
    decide
  have h := overflow_spec threeFull_reachable hs
  refine ⟨(h.fails_iff 3 1 []).mpr hover, h.untouched 3 1 [] hover, ?_⟩
  exact (h.stops _ _ [] .countOverflow (.extend [4, 3, 7]) rfl).2

end Session

end OrderedBag
