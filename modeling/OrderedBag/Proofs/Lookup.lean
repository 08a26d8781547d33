import OrderedBag.Proofs.Narrow
import OrderedBag.View.Lookup
import OrderedBag.View.Remove

/-!
# Looking up and removing an entry

An element is looked up among the entries that a view shows, and what is removed through a view is
one of those entries, with all of its occurrences. A source that is not indexed finds the count of
an element at the head of the entries from that element on, and takes an end off as any other entry.

* `View.count_answers`, `View.contains_answers` — the shown entry of an element decides
* `View.take_gives`, `View.poll_gives` — the removed entry is a shown one, and nothing else goes
-/

namespace OrderedBag

open Std OrderedBag.Action

variable {α : Type}

/-! ## The entry of an element -/

/-- The entry that compares equal to an element. -/
def Comparator.find? (c : Comparator α) (es : List (Entry α)) (x : α) : Option (Entry α) :=
  es.find? fun e => (c.compare e.element x).isEq

namespace Comparator

variable {c : Comparator α} {es : List (Entry α)}

theorem mem_of_find? {x : α} {e : Entry α} (h : c.find? es x = some e) :
    e ∈ es ∧ c.compare e.element x = .eq := by
  refine ⟨List.mem_of_find?_eq_some h, ?_⟩
  simpa using List.find?_some h

theorem find?_eq_none_iff {x : α} :
    c.find? es x = none ↔ ∀ e ∈ es, c.compare e.element x ≠ .eq := by
  simp [find?]

/-- The entry of an element stands first among the entries from that element on. -/
theorem find?_eq_head? (h : es.Pairwise c.Precedes) (x : α) :
    c.find? es x =
      (es.filter fun e => (Interval.downTo ⟨x, .inclusive⟩).contains c e.element).head?.filter
        fun e => (c.compare e.element x).isEq := by
  unfold find?
  induction es with
  | nil => rfl
  | cons e es ih =>
    obtain ⟨he, hes⟩ := List.pairwise_cons.mp h
    have hin : (Interval.downTo ⟨x, .inclusive⟩).contains c e.element =
        !(c.compare e.element x).isLT := by
      unfold Interval.contains Interval.tooLow Interval.tooHigh Interval.downTo
      cases hex : c.compare e.element x <;> simp [hex]
    cases hex : c.compare e.element x with
    | lt =>
      rw [List.find?_cons_of_neg (by simp [hex]), List.filter_cons_of_neg (by simp [hin, hex])]
      exact ih hes
    | eq =>
      rw [List.find?_cons_of_pos (by simp [hex]), List.filter_cons_of_pos (by simp [hin, hex])]
      simp [Option.filter, hex]
    | gt =>
      -- the head lies beyond `x`, and all that follows even more so
      have hnone : (es.find? fun e => (c.compare e.element x).isEq) = none := by
        refine find?_eq_none_iff.mpr ?_
        intro f hf heq
        have hfe : c.compare e.element x = .lt := TransCmp.lt_of_lt_of_eq (he f hf) heq
        simp [hex] at hfe
      rw [List.find?_cons_of_neg (by simp [hex]), List.filter_cons_of_pos (by simp [hin, hex]),
        hnone]
      simp [Option.filter, hex]

end Comparator

namespace View

variable {v : View α} {contents : BagId → Histogram α}

theorem order_compare_eq_iff (v : View α) (a b : α) :
    v.order.compare a b = .eq ↔ v.root.comparator.compare a b = .eq := by
  rw [order_eq]
  cases v.facing with
  | ascending => rfl
  | descending =>
    rw [Comparator.towards, Comparator.compare_reversed]
    cases v.root.comparator.compare a b <;> simp

/-- The shown entry of an element is its stored entry, if the view lets the element through. -/
theorem find?_listing (hs : (contents v.root.bag).entries.Pairwise v.root.comparator.Precedes)
    (x : α) :
    v.order.find? (v.listing contents) x =
      if v.admits x then (contents v.root.bag).find? v.root.comparator x else none := by
  have hadmits {e : Entry α} (hex : v.root.comparator.compare e.element x = .eq) :
      v.admits e.element = v.admits x :=
    v.admits_congr ((v.order_compare_eq_iff _ _).mpr hex)
  cases hfound : v.order.find? (v.listing contents) x with
  | some e =>
    obtain ⟨hmem, hex⟩ := Comparator.mem_of_find? hfound
    obtain ⟨hmem, hadm⟩ := mem_listing.mp hmem
    have hex := (v.order_compare_eq_iff _ _).mp hex
    rw [hadmits hex] at hadm
    rw [if_pos hadm]
    exact (Comparator.find?_eq_some hs hmem hex).symm
  | none =>
    split
    next hadm =>
      refine (Comparator.find?_eq_none_iff.mpr ?_).symm
      intro e he hex
      refine Comparator.find?_eq_none_iff.mp hfound e (mem_listing.mpr ⟨he, ?_⟩)
        ((v.order_compare_eq_iff _ _).mpr hex)
      rw [hadmits hex, hadm]
    next => rfl

end View

/-! ## Counting -/

/-- Counts an element where it stands first, in the range that starts with it. -/
def Source.countInRange (s : Source α) (x : α) : Action α Nat := do
  let tail ← s.narrow (.downTo ⟨x, .inclusive⟩)
  match ← Action.reading fun reg => tail.extreme? reg .ascending with
  | some e => return if (s.comparator.compare e.element x).isEq then e.count else 0
  | none => return 0

/-- An indexed source looks the element up, any other finds it first in a range. -/
theorem Source.count_answers {reg : Registry α} {s : Source α}
    (hv : (reg.contents s.bag).Valid s.comparator) (ha : s.access ≠ .detached) (x : α) :
    (s.count x).Answers reg (.ok ((reg.contents s.bag).multiplicity s.comparator x)) := by
  have hrange : (s.countInRange x).Answers reg
      (.ok ((reg.contents s.bag).multiplicity s.comparator x)) := by
    have hu : (View.source s).Usable reg := ⟨rfl, hv⟩
    have htail := View.narrow_ok hu ha (.downTo ⟨x, .inclusive⟩)
    refine htail.bind_ok fun l => ?_
    have hread : (Action.reading fun reg =>
        ((View.source s).narrowed (.downTo ⟨x, .inclusive⟩)).extreme? reg .ascending).Answers
        (reg.withLog l) _ := answers_reading _
    rw [View.extreme?_eq ((hu.narrowed _).withLog l)] at hread
    refine hread.bind_ok fun l' => ?_
    have hhead := Comparator.find?_eq_head? hv.sorted x
    have hfirst : Direction.ascending.extreme? (((View.source s).narrowed
        (.downTo ⟨x, .inclusive⟩)).listing (reg.withLog l).contents) =
        ((reg.contents s.bag).entries.filter fun e =>
          (Interval.downTo ⟨x, .inclusive⟩).contains s.comparator e.element).head? := rfl
    rw [hfirst]
    unfold Histogram.multiplicity Histogram.find?
    unfold Comparator.find? at hhead
    rw [hhead]
    cases ((reg.contents s.bag).entries.filter fun e =>
        (Interval.downTo ⟨x, .inclusive⟩).contains s.comparator e.element).head? with
    | none => exact answers_pure 0
    | some e =>
      cases hex : (s.comparator.compare e.element x).isEq with
      | true => simpa [Option.filter, hex] using answers_pure e.count
      | false => simpa [Option.filter, hex] using answers_pure 0
  unfold count
  cases s.access with
  | indexed => exact answers_get.map fun reg => (reg.contents s.bag).multiplicity s.comparator x
  | sequential | copying | detached => exact hrange

/-- An element occurs exactly when it has an entry. -/
theorem Histogram.Valid.multiplicity_pos {c : Comparator α} {h : Histogram α} (hv : h.Valid c)
    (x : α) : decide (0 < h.multiplicity c x) = (h.find? c x).isSome := by
  unfold Histogram.multiplicity
  cases hf : h.find? c x with
  | none => rfl
  | some e =>
    have hpos : 1 ≤ e.count := (hv.counts e (Comparator.mem_of_find? hf).1).1
    exact decide_eq_true hpos

theorem Source.contains_answers {reg : Registry α} {s : Source α}
    (hv : (reg.contents s.bag).Valid s.comparator) (ha : s.access ≠ .detached) (x : α) :
    (s.contains x).Answers reg (.ok ((reg.contents s.bag).find? s.comparator x).isSome) := by
  have hcount := (count_answers hv ha x).map fun n => decide (0 < n)
  rw [Except.map, hv.multiplicity_pos] at hcount
  unfold contains
  cases s.access with
  | indexed => exact answers_get.map fun reg => ((reg.contents s.bag).find? s.comparator x).isSome
  | sequential | copying | detached => exact hcount

namespace View

variable {v : View α} {reg : Registry α}

/-- How often an element occurs is what its shown entry says. -/
theorem count_answers (hu : v.Usable reg) (ha : v.root.access ≠ .detached) (x : α) :
    (v.count x).Answers reg
      (.ok (((v.order.find? (v.listing reg.contents) x).map Entry.count).getD 0)) := by
  induction v generalizing reg with
  | source s => exact Source.count_answers hu.valid ha x
  | range n s r =>
    rw [find?_listing hu.valid.sorted]
    show (if r.contains s.comparator x then s.count x else return 0).Answers reg
      (.ok (((if r.contains s.comparator x then (reg.contents s.bag).find? s.comparator x
        else none).map Entry.count).getD 0))
    split
    · exact Source.count_answers hu.valid ha x
    · exact answers_pure 0
  | descending n link f ih =>
    obtain ⟨hfollow, hf⟩ := hu.forward
    have hlink := answers_follow reg link f
    rw [hfollow] at hlink
    refine hlink.bind_ok fun l => ?_
    have hbehind := ih (hf.withLog l) ha
    rw [find?_listing (hf.withLog l).valid.sorted] at hbehind
    rw [find?_listing hu.valid.sorted]
    exact hbehind

/-- An element occurs if it has a shown entry. -/
theorem contains_answers (hu : v.Usable reg) (ha : v.root.access ≠ .detached) (x : α) :
    (v.contains x).Answers reg (.ok (v.order.find? (v.listing reg.contents) x).isSome) := by
  have hcount := (count_answers hu ha x).map fun n => decide (0 < n)
  have hpos : decide (0 < ((v.order.find? (v.listing reg.contents) x).map Entry.count).getD 0) =
      (v.order.find? (v.listing reg.contents) x).isSome := by
    cases hf : v.order.find? (v.listing reg.contents) x with
    | none => rfl
    | some e =>
      obtain ⟨hmem, -⟩ := mem_listing.mp (Comparator.mem_of_find? hf).1
      exact decide_eq_true (hu.valid.counts e hmem).1
  rw [Except.map, hpos] at hcount
  cases v with
  | source s => exact Source.contains_answers hu.valid ha x
  | range n s r => exact hcount
  | descending n link f => exact hcount

end View

/-! ## Removing -/

namespace Histogram

variable {c : Comparator α} {h : Histogram α}

/-- Elements that compare equal have the same entry to remove. -/
theorem erase_congr {x y : α} (hxy : c.compare x y = .eq) (h : Histogram α) :
    h.erase c x = h.erase c y := by
  unfold erase find?
  have hsame (e : Entry α) : c.compare e.element x = c.compare e.element y :=
    TransCmp.congr_right hxy
  simp only [hsame]

theorem erase_of_find?_eq_none {x : α} (hnone : h.find? c x = none) : h.erase c x = h := by
  rw [erase, hnone]

/-- Taking the extreme entry off an end is removing it as any other entry. -/
theorem Valid.eraseExtreme_eq (hv : h.Valid c) {d : Direction} {e : Entry α}
    (he : d.extreme? h.entries = some e) : h.eraseExtreme d = h.erase c e.element := by
  have hentries := hv.entries_eraseExtreme he
  have hfind : h.find? c e.element = some e :=
    Comparator.find?_eq_some hv.sorted (Direction.mem_of_extreme? he) (Comparator.compare_self c _)
  unfold Histogram.eraseExtreme Histogram.erase at hentries ⊢
  rw [he, hfind] at hentries ⊢
  exact congrArg (Histogram.mk · _) hentries

end Histogram

namespace View

/-- The contents without an entry of the source behind a view. -/
def without (contents : BagId → Histogram α) (v : View α) :
    Option (Entry α) → BagId → Histogram α
  | none => contents
  | some e => fun b =>
    if b = v.root.bag then (contents b).erase v.root.comparator e.element else contents b

end View

theorem Registry.contents_setContents_self (reg : Registry α) (b : BagId) :
    (reg.setContents b (reg.contents b)).contents = reg.contents := by
  funext b'
  rw [contents_setContents]
  split
  next hb => rw [hb.1]
  next => rfl

namespace Source

variable {reg : Registry α} {s : Source α}

/-- Removing the entry of an element is removing the entry that is found. -/
theorem take_gives (hs : reg.Sound) (hh : reg.Houses (.source s)) (x : α) :
    (s.take x).Gives reg (.ok ((reg.contents s.bag).find? s.comparator x))
      ((View.source s).without reg.contents ((reg.contents s.bag).find? s.comparator x)) := by
  obtain ⟨hlt, hv⟩ := hs.stocked.stocks s hh
  refine ⟨_, perform_take hs.wrapping s x, .single (.stored hh (hv.erase x)), ?_⟩
  show (reg.setContents s.bag ((reg.contents s.bag).erase s.comparator x)).contents = _
  cases hf : (reg.contents s.bag).find? s.comparator x with
  | none =>
    rw [Histogram.erase_of_find?_eq_none hf]
    exact reg.contents_setContents_self s.bag
  | some e =>
    have hex := (Comparator.mem_of_find? hf).2
    -- `x` is erased, and `e` is what compares equal to it
    funext b
    rw [Registry.contents_setContents, Histogram.erase_congr (Comparator.eq_symm hex)]
    show _ = if b = s.bag then (reg.contents b).erase s.comparator e.element else reg.contents b
    by_cases hb : b = s.bag
    · rw [if_pos ⟨hb, hlt⟩, if_pos hb, hb]
    · rw [if_neg fun h => hb h.1, if_neg hb]

theorem take_extreme_gives (hs : reg.Sound) (hh : reg.Houses (.source s)) {d : Direction}
    {e : Entry α} (he : d.extreme? (reg.contents s.bag).entries = some e) :
    (s.take e.element).Gives reg (.ok (some e))
      ((View.source s).without reg.contents (some e)) := by
  have hv := (hs.stocked.stocks s hh).2
  have hfind : (reg.contents s.bag).find? s.comparator e.element = some e :=
    Comparator.find?_eq_some hv.sorted (Direction.mem_of_extreme? he) (Comparator.compare_self _ _)
  have h := take_gives hs hh e.element
  rwa [hfind] at h

/-- Finds the entry met first, and removes it as any other. -/
def pollFound (s : Source α) (d : Direction) : Action α (Option (Entry α)) := do
  match s.extreme? (← get).contents d with
  | some e => s.take e.element
  | none => return none

/-- The entry met first goes, whether it is taken off its end or found first. -/
theorem poll_gives (hs : reg.Sound) (hh : reg.Houses (.source s)) (d : Direction) :
    (s.poll d).Gives reg (.ok (d.extreme? (reg.contents s.bag).entries))
      ((View.source s).without reg.contents (d.extreme? (reg.contents s.bag).entries)) := by
  have hv := (hs.stocked.stocks s hh).2
  have hend : (s.lose (d.extreme? (reg.contents s.bag).entries)
      ((reg.contents s.bag).eraseExtreme d)).Gives reg
      (.ok (d.extreme? (reg.contents s.bag).entries))
      ((View.source s).without reg.contents (d.extreme? (reg.contents s.bag).entries)) := by
    refine ⟨_, perform_lose hs.wrapping s _ _, .single (.stored hh (hv.eraseExtreme d)), ?_⟩
    show (reg.setContents s.bag ((reg.contents s.bag).eraseExtreme d)).contents = _
    cases he : d.extreme? (reg.contents s.bag).entries with
    | none =>
      rw [Histogram.eraseExtreme, he]
      exact reg.contents_setContents_self s.bag
    | some e =>
      obtain ⟨reg', hperform, -, hk⟩ := take_extreme_gives hs hh he
      rw [perform_take hs.wrapping] at hperform
      rw [hv.eraseExtreme_eq he, ← hk]
      exact congrArg (fun p => p.2.contents) hperform
  have hfound : (s.pollFound d).Gives reg (.ok (d.extreme? (reg.contents s.bag).entries))
      ((View.source s).without reg.contents (d.extreme? (reg.contents s.bag).entries)) := by
    refine Gives.after (perform_get reg) ?_
    simp only [extreme?_eq hv]
    cases he : d.extreme? (reg.contents s.bag).entries with
    | none => exact (answers_pure none).gives
    | some e => exact take_extreme_gives hs hh he
  unfold poll
  cases s.access with
  | indexed => exact .after (perform_get reg) hend
  | sequential | copying | detached => exact hfound

end Source

namespace View

variable {v : View α} {reg : Registry α}

/-- Through a view the shown entry of an element is removed, and nothing else. -/
theorem take_gives (hs : reg.Sound) (hh : reg.Houses v) (hreach : reg.canReach v = true) (x : α) :
    (v.take x).Gives reg (.ok (v.order.find? (v.listing reg.contents) x))
      (v.without reg.contents (v.order.find? (v.listing reg.contents) x)) := by
  have hu := hs.usable hh hreach
  have hroot := hh.root hs.wellFormed
  rw [find?_listing hu.valid.sorted]
  induction v with
  | source s => exact Source.take_gives hs hh x
  | range n s r =>
    show (if r.contains s.comparator x then s.take x else return none).Gives reg
      (.ok (if r.contains s.comparator x then (reg.contents s.bag).find? s.comparator x else none))
      ((source s).without reg.contents
        (if r.contains s.comparator x then (reg.contents s.bag).find? s.comparator x else none))
    split
    · exact Source.take_gives hs hroot x
    · exact (answers_pure none).gives
  | descending n link f ih =>
    obtain ⟨hfollow, hf⟩ := hu.forward
    refine Gives.after (perform_follow_ok hfollow) ?_
    exact ih (hh.base hs.wellFormed rfl) hf.reach hf hroot

/-- Through a view the shown entry that is met first is removed, and nothing else. -/
theorem poll_gives (hs : reg.Sound) (hh : reg.Houses v) (hreach : reg.canReach v = true)
    (d : Direction) :
    (v.poll d).Gives reg (.ok (d.extreme? (v.listing reg.contents)))
      (v.without reg.contents (d.extreme? (v.listing reg.contents))) := by
  have hu := hs.usable hh hreach
  induction v generalizing d with
  | source s => exact Source.poll_gives hs hh d
  | range n s r =>
    have hread : (Action.reading fun reg => (range n s r).extreme? reg d).perform reg =
        (.ok (d.extreme? ((range n s r).listing reg.contents)), reg) := by
      rw [perform_reading, extreme?_eq hu]
    refine Gives.after hread ?_
    cases he : d.extreme? ((range n s r).listing reg.contents) with
    | none => exact (answers_pure none).gives
    | some e =>
      have hfind : (range n s r).order.find? ((range n s r).listing reg.contents) e.element =
          some e :=
        Comparator.find?_eq_some (pairwise_listing hu.valid.sorted)
          (Direction.mem_of_extreme? he) (Comparator.compare_self _ _)
      have h := take_gives hs hh hreach e.element
      rwa [hfind] at h
  | descending n link f ih =>
    obtain ⟨hfollow, hf⟩ := hu.forward
    have hflip : d.extreme? ((descending n link f).listing reg.contents) =
        d.flip.extreme? (f.listing reg.contents) := by
      cases d <;> simp [Direction.extreme?, Direction.flip, listing]
    rw [hflip]
    refine Gives.after (perform_follow_ok hfollow) ?_
    exact ih (hh.base hs.wellFormed rfl) hf.reach d.flip hf

end View

end OrderedBag
