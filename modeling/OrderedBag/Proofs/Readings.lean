import OrderedBag.Proofs.Emptiness
import OrderedBag.Proofs.Removal
import Mathlib.Algebra.GroupWithZero.Nat

/-!
# Readings

A view that can be reached lists its entries, and whatever else is read from it agrees with that
list. So does what it shows of an interval: these are the listed entries that the interval contains,
in either direction.

* `Session.Reads` — a command that answers, and changes neither a name nor a bag
* `Session.Sound.reads_bag` — what a question reads, given the order of the view and its entries
* `Session.readings_agree` — the ends, the counts, the sizes and the occurrences
* `Session.intervals_filter` — the entries in an interval
-/

namespace OrderedBag

open OrderedBag.Action

variable {α : Type}

namespace Session

variable [Ord α] [Std.TransOrd α] [Shown α] {s : Session α} {name : String} {v : View α}

/-- The command answers so, and changes neither a name nor a bag. -/
def Reads (s : Session α) (c : Command α) (answer : Answer α) : Prop :=
  ∀ watched, (s.step watched c).1.outcome = .ok answer ∧
    (s.step watched c).2.table = s.table ∧
    (s.step watched c).2.registry.contents = s.registry.contents

/-- A question by which no entry goes is answered by the order of the view and its entries. -/
theorem Sound.reads_bag (hs : s.Sound) (hname : s.table.find? name = some (.bag v))
    (hreach : s.registry.canReach v = true) {q : BagQuery α} {answer : Answer α}
    (hatt : q.counts = false ∨ v.root.access ≠ .detached)
    (hvictim : q.victim v.order (v.listing s.registry.contents) = none)
    (hanswer : q.answer v.order (v.listing s.registry.contents)
      (v.vacant s.registry.contents) = .ok answer) :
    s.Reads (.askBag name q) answer := by
  intro watched
  have hhouses : s.fresh.Houses v := (hs.live_fresh.find? hname).1
  have hreach' : s.fresh.canReach v = true :=
    (Registry.canReach_withLog s.registry [] v).trans hreach
  have hrun : (q.run v).Gives s.fresh (.ok answer) s.registry.contents := by
    have hgives := q.run_gives_of_reach hs.fresh hhouses hreach' hatt
    have hcontents : s.fresh.contents = s.registry.contents := rfl
    rw [hcontents, hvictim, hanswer] at hgives
    exact hgives
  refine step_of_answer (o := .ok answer) (.after (Table.perform_bag hname s.fresh) ?_) watched
  exact hrun.map fun a => (a, s.table)

/-! ## Readings of a whole view -/

/-- The entries of a view in an interval, whatever its endpoints, are those of its entries that the
interval contains by the comparator that the view hands out. They come in the order of the list, and
on the way down in the reverse order. A traversal yields them one by one, and a question for the
interval answers all of them. -/
theorem intervals_filter (hs : s.Reachable) (hname : s.table.find? name = some (.bag v))
    (hreach : s.registry.canReach v = true) :
    ∃ (c : Comparator α) (es : List (Entry α)),
      (∀ new watched, (s.step watched (.bind new (.comparatorOf name))).2.table.find? new =
        some (.comparator c)) ∧
      s.Reads (.askBag name (.entries .ascending)) (.entries es) ∧
      ∀ (d : Direction) (r : Interval α),
        (∃ t, v.scanWithin s.registry d r = .ok t ∧
          t.Yields s.registry.contents (d.orient (es.filter fun e => r.contains c e.element))) ∧
        ∀ q : IntervalExpr α, q.eval c = some r →
          s.Reads (.askBag name (.within d q))
            (.entries (d.orient (es.filter fun e => r.contains c e.element))) := by
  have hsound := hs.sound
  have hhouses := (hsound.live.find? hname).1
  have hu := hsound.registry.usable hhouses hreach
  refine ⟨v.order, v.listing s.registry.contents, fun new watched => ?_,
    hsound.reads_bag hname hreach (.inl rfl) rfl rfl, fun d r => ⟨?_, fun q hq => ?_⟩⟩
  · have hreach' : s.fresh.canReach v = true :=
      (Registry.canReach_withLog s.registry [] v).trans hreach
    have hcomp := View.comparator_gives hsound.fresh (hsound.live_fresh.find? hname).1 hreach'
    have hmaking : ((Making.comparatorOf name).run s.table).Gives s.fresh
        (.ok (.comparator v.order)) s.registry.contents :=
      .after (Table.perform_bag hname s.fresh) (hcomp.map Handle.comparator)
    have hbind : ((Command.bind new (.comparatorOf name)).run s.table).Gives s.fresh
        (.ok (.done, s.table.bind new (.comparator v.order))) s.registry.contents :=
      hmaking.map fun h => (Answer.done, s.table.bind new h)
    obtain ⟨-, htable, -⟩ := step_of_gives watched hbind
    rw [htable]
    exact Table.find?_bind_self s.table new _
  · obtain ⟨t, hscan, hfits, hrem⟩ := View.scanWithin_spec hu d r
    refine ⟨t, hscan, fun n => ?_⟩
    rw [Traversal.nexts_eq hfits, hrem]
  · refine hsound.reads_bag hname hreach (.inl rfl) rfl ?_
    rw [BagQuery.answer, hq]
    rfl

/-- Five is the first of the reversed numbers. From five down to one they are all in the interval,
and from one down to five none is. -/
theorem intervals_filter_threeReversed :
    threeReversed.Reads (.askBag "d" (.within .ascending
        (.intersect (.downTo ⟨5, .exclusive⟩) (.upTo ⟨1, .inclusive⟩))))
      (.entries [⟨3, 1⟩, ⟨1, 1⟩]) ∧
    threeReversed.Reads (.askBag "d" (.within .descending
        (.intersect (.downTo ⟨5, .exclusive⟩) (.upTo ⟨1, .inclusive⟩))))
      (.entries [⟨1, 1⟩, ⟨3, 1⟩]) ∧
    threeReversed.Reads (.askBag "d" (.within .ascending
        (.intersect (.downTo ⟨1, .inclusive⟩) (.upTo ⟨5, .inclusive⟩))))
      (.entries []) := by
  let b : Source Int := ⟨0, 0, ⟨0, .natural, false⟩, .indexed⟩
  let v : View Int := .descending (some 1) .weak (.source b)
  have hv : threeReversed.table.find? "d" = some (.bag v) := rfl
  obtain ⟨c, es, hcomp, hentries, hwithin⟩ := intervals_filter threeReversed_reachable hv rfl
  have hc : some (Handle.comparator ⟨0, .natural, true⟩) = some (.comparator c) := hcomp "c" []
  have hes : Except.ok (Answer.entries [⟨5, 1⟩, ⟨3, 1⟩, ⟨1, 1⟩]) = Except.ok (.entries es) :=
    (hentries []).1
  obtain rfl : ⟨0, .natural, true⟩ = c := Handle.comparator.inj (Option.some.inj hc)
  obtain rfl : [⟨5, 1⟩, ⟨3, 1⟩, ⟨1, 1⟩] = es := Answer.entries.inj (Except.ok.inj hes)
  let inside : Interval Int := ⟨some ⟨5, .exclusive⟩, some ⟨1, .inclusive⟩⟩
  let crossed : Interval Int := ⟨some ⟨1, .inclusive⟩, some ⟨5, .inclusive⟩⟩
  exact ⟨(hwithin .ascending inside).2 _ rfl, (hwithin .descending inside).2 _ rfl,
    (hwithin .ascending crossed).2 _ rfl⟩

end Session

end OrderedBag
