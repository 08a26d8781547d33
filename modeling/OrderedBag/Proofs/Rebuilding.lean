import Mathlib.Data.List.Sort
import OrderedBag.Proofs.Evaluations
import OrderedBag.Proofs.Overflow

/-!
# Rebuilding a bag

A source that is made of entries gathers them: for each element that occurs it has one entry, with
the first element that compares equal, and with the sum of the counts. Sorted entries that are
determined in this way are unique, so whoever copies a bag gets the same whether the copy is made of
its entries or of its occurrences, although the bag may be sorted by another order that tells
elements apart which the natural order does not, or the other way around. If it is sorted in natural
order, the copy has its entries.

* `Comparator.Gathers` — the entries that a list of entries comes to
* `Comparator.Gathers.eq_of_same` — they depend on the first elements and on the sums alone
* `Entry.Rearranges` — another order, and entries that are split, which do not change the sums
* `Source.insertEntries_gathers`, `insertEntries_overflows` — what inserting entries leads to
* `Session.Rebuilds` — a new source that has given entries
* `Session.rebuilt_sources_gather` — copies of a bag, and sources made of lists of entries
-/

namespace OrderedBag

open Std OrderedBag.Action

variable {α : Type} {c : Comparator α} {es es' fs fs' : List (Entry α)}

/-! ## Gathering entries -/

namespace Comparator

instance : Std.Irrefl c.Precedes where
  irrefl e h := by simp [Precedes, compare_self] at h

instance : Std.Antisymm c.Precedes where
  antisymm d e h h' := by
    have hgt := OrientedCmp.gt_of_lt h'
    rw [h] at hgt
    cases hgt

/-- Sorted entries are the same if the same entry is found for every element. -/
theorem eq_of_find? (hes : es.Pairwise c.Precedes) (hfs : fs.Pairwise c.Precedes)
    (h : ∀ x, c.find? es x = c.find? fs x) : es = fs := by
  have hmem {gs : List (Entry α)} (hgs : gs.Pairwise c.Precedes) (e : Entry α) :
      e ∈ gs ↔ c.find? gs e.element = some e :=
    ⟨fun he => find?_eq_some hgs he (compare_self c e.element), fun he => (mem_of_find? he).1⟩
  refine hes.eq_of_mem_iff hfs fun e => ?_
  rw [hmem hes, hmem hfs, h]

theorem find?_cons (c : Comparator α) (e : Entry α) (es : List (Entry α)) (x : α) :
    c.find? (e :: es) x = if (c.compare e.element x).isEq then some e else c.find? es x := by
  unfold find?
  rw [List.find?_cons]
  split <;> simp [*]

theorem find?_append (c : Comparator α) (es fs : List (Entry α)) (x : α) :
    c.find? (es ++ fs) x = (c.find? es x).or (c.find? fs x) :=
  List.find?_append

theorem tally_append (c : Comparator α) (es fs : List (Entry α)) (x : α) :
    c.tally (es ++ fs) x = c.tally es x + c.tally fs x := by
  unfold tally
  rw [List.filter_append, totalCount_append]

theorem find?_concat (c : Comparator α) (es : List (Entry α)) (e : Entry α) (x : α) :
    c.find? (es ++ [e]) x =
      (c.find? es x).or (if (c.compare e.element x).isEq then some e else none) := by
  rw [find?_append, find?_cons]
  rfl

theorem tally_concat (c : Comparator α) (es : List (Entry α)) (e : Entry α) (x : α) :
    c.tally (es ++ [e]) x =
      c.tally es x + if (c.compare e.element x).isEq then e.count else 0 := by
  rw [tally_append, tally_cons]
  rfl

/-- The entries for elements that compare equal are the same. -/
theorem find?_congr {x y : α} (h : c.compare x y = .eq) (es : List (Entry α)) :
    c.find? es x = c.find? es y := by
  unfold find?
  simp only [TransCmp.congr_right h]

theorem tally_congr {x y : α} (h : c.compare x y = .eq) (es : List (Entry α)) :
    c.tally es x = c.tally es y := by
  unfold tally
  simp only [TransCmp.congr_right h]

theorem tally_of_find?_eq_none {x : α} (h : c.find? es x = none) : c.tally es x = 0 :=
  tally_eq_zero (find?_eq_none_iff.mp h)

/-- No element counts more than all of them. -/
theorem tally_le_totalCount (c : Comparator α) (es : List (Entry α)) (x : α) :
    c.tally es x ≤ totalCount es := by
  induction es with
  | nil => exact Nat.le_refl 0
  | cons e es ih =>
    rw [tally_cons, totalCount_cons]
    split <;> omega

/-- The entry of an element after an insertion. -/
theorem find?_addTo (hfs : fs.Pairwise c.Precedes) (x : α) (n : Nat) (y : α) :
    c.find? (Histogram.addTo c x n fs) y =
      if (c.compare x y).isEq then
        some ⟨((c.find? fs x).map Entry.element).getD x, c.tally fs x + n⟩
      else c.find? fs y := by
  induction fs with
  | nil =>
    show c.find? [⟨x, n⟩] y = _
    rw [find?_cons, tally_of_find?_eq_none rfl, Nat.zero_add]
    rfl
  | cons d fs ih =>
    unfold Histogram.addTo
    split
    next hlt =>
      have hnone : c.find? (d :: fs) x = none :=
        find?_eq_none_iff.mpr (compare_ne_eq_of_lt_head hfs hlt)
      rw [find?_cons, hnone, tally_of_find?_eq_none hnone, Nat.zero_add]
      rfl
    next heq =>
      have hfind : c.find? (d :: fs) x = some d :=
        find?_eq_some hfs List.mem_cons_self (eq_symm heq)
      rw [find?_cons, TransCmp.congr_left heq, tally_eq _ hfs, hfind, find?_cons]
      split <;> rfl
    next hgt =>
      have hdx : c.compare d.element x = .lt := OrientedCmp.lt_of_gt hgt
      rw [find?_cons, ih hfs.of_cons, find?_cons c d fs x, find?_cons c d fs y, tally_cons]
      simp only [hdx, Ordering.isEq_lt, Bool.false_eq_true, if_false, Nat.zero_add]
      by_cases hdy : (c.compare d.element y).isEq = true
      · -- what compares equal to `d` does not compare equal to `x`
        have hxy : c.compare x y = .gt := by
          rw [← TransCmp.congr_right (Ordering.isEq_iff_eq_eq.mp hdy)]
          exact hgt
        simp [hdy, hxy]
      · simp [hdy]

/-- The entries `es`, gathered: sorted, with one entry for each element that occurs, which has the
first element that compares equal and the sum of their counts. -/
structure Gathers (c : Comparator α) (es fs : List (Entry α)) : Prop where
  sorted : fs.Pairwise c.Precedes
  find? : ∀ x, c.find? fs x = (c.find? es x).map fun e => ⟨e.element, c.tally es x⟩

/-- Gathers the entries one after the other. -/
def gather (c : Comparator α) (es : List (Entry α)) : List (Entry α) :=
  es.foldl (fun fs e => Histogram.addTo c e.element e.count fs) []

namespace Gathers

theorem nil (c : Comparator α) : c.Gathers [] [] :=
  ⟨.nil, fun _ => rfl⟩

/-- The sums are the counts. -/
theorem tally_eq (h : c.Gathers es fs) (x : α) : c.tally fs x = c.tally es x := by
  rw [Comparator.tally_eq fs h.sorted, h.find?]
  cases hfind : c.find? es x with
  | none => exact (tally_of_find?_eq_none hfind).symm
  | some e => rfl

/-- One more entry is gathered by adding it. -/
theorem concat (h : c.Gathers es fs) (e : Entry α) :
    c.Gathers (es ++ [e]) (Histogram.addTo c e.element e.count fs) where
  sorted := Histogram.pairwise_addTo h.sorted _ _
  find? x := by
    rw [find?_addTo h.sorted, h.tally_eq, find?_concat, tally_concat]
    by_cases hex : (c.compare e.element x).isEq = true
    · have hsame := Ordering.isEq_iff_eq_eq.mp hex
      rw [if_pos hex, if_pos hex, if_pos hex, h.find?, find?_congr hsame, tally_congr hsame]
      cases c.find? es x <;> rfl
    · rw [if_neg hex, if_neg hex, if_neg hex, h.find?, Option.or_none, Nat.add_zero]

/-- The first elements and the sums determine what is gathered. -/
theorem eq_of_same (h : c.Gathers es fs) (h' : c.Gathers es' fs')
    (helements : ∀ x, (c.find? es x).map Entry.element = (c.find? es' x).map Entry.element)
    (htallies : ∀ x, c.tally es x = c.tally es' x) : fs = fs' := by
  refine eq_of_find? h.sorted h'.sorted fun x => ?_
  have hmap (gs : List (Entry α)) :
      ((c.find? gs x).map fun e => (⟨e.element, c.tally gs x⟩ : Entry α)) =
        ((c.find? gs x).map Entry.element).map fun y => ⟨y, c.tally gs x⟩ := by
    rw [Option.map_map]
    rfl
  rw [h.find?, h'.find?, hmap, hmap, helements, htallies]

theorem unique (h : c.Gathers es fs) (h' : c.Gathers es fs') : fs = fs' :=
  h.eq_of_same h' (fun _ => rfl) fun _ => rfl

/-- Sorted entries are gathered as they are. -/
theorem of_sorted (h : es.Pairwise c.Precedes) : c.Gathers es es where
  sorted := h
  find? x := by
    rw [Comparator.tally_eq es h]
    cases c.find? es x <;> rfl

/-- The counts are in range if the sums are. -/
theorem fits_iff (h : c.Gathers es fs) {n : Nat} :
    (∀ f ∈ fs, f.count ≤ n) ↔ ∀ x, c.tally es x ≤ n := by
  have hcount {f : Entry α} (hf : f ∈ fs) : c.tally fs f.element = f.count := by
    rw [Comparator.tally_eq fs h.sorted]
    unfold Comparator.find?
    rw [find?_eq_some h.sorted hf (compare_self c f.element)]
    rfl
  constructor
  · intro hfs x
    rw [← h.tally_eq, Comparator.tally_eq fs h.sorted]
    cases hfind : c.find? fs x with
    | none => exact Nat.zero_le n
    | some f => exact hfs f (mem_of_find? hfind).1
  · intro hes f hf
    rw [← hcount hf, h.tally_eq]
    exact hes f.element

end Gathers

theorem gathers_gather (c : Comparator α) (es : List (Entry α)) : c.Gathers es (c.gather es) := by
  induction es using List.reverseRecOn with
  | nil => exact .nil c
  | append_singleton es e ih =>
    unfold gather
    rw [List.foldl_append]
    exact ih.concat e

end Comparator

/-! ## Lists of entries with the same sums -/

namespace Entry

/-- The entry of a single occurrence. -/
def single (x : α) : Entry α :=
  ⟨x, 1⟩

theorem valid_single (x : α) : (single x).Valid :=
  ⟨Nat.le_refl 1, (by decide : 1 ≤ maxCount)⟩

/-- A list of entries is put into another order, or entries are split. -/
inductive Rearranges : List (Entry α) → List (Entry α) → Prop
  /-- Another order. -/
  | permute {es fs : List (Entry α)} (h : es.Perm fs) : Rearranges es fs
  /-- One entry is split into two. -/
  | split (before : List (Entry α)) (x : α) (m n : Nat) (after : List (Entry α)) :
      Rearranges (before ++ ⟨x, m + n⟩ :: after) (before ++ ⟨x, m⟩ :: ⟨x, n⟩ :: after)
  /-- One thing after the other. -/
  | trans {es fs gs : List (Entry α)} (h : Rearranges es fs) (h' : Rearranges fs gs) :
      Rearranges es gs

end Entry

namespace Comparator

theorem tally_perm (c : Comparator α) (h : es.Perm fs) (x : α) : c.tally es x = c.tally fs x := by
  induction h with
  | nil => rfl
  | cons e _ ih => rw [tally_cons, tally_cons, ih]
  | swap d e es =>
    simp only [tally_cons]
    omega
  | trans _ _ ih ih' => exact ih.trans ih'

/-- Neither the order nor a split changes the sums. -/
theorem tally_rearranges (c : Comparator α) (h : Entry.Rearranges es fs) (x : α) :
    c.tally es x = c.tally fs x := by
  induction h with
  | permute h => exact c.tally_perm h x
  | split before y m n after =>
    simp only [tally_append, tally_cons]
    split <;> omega
  | trans _ _ ih ih' => exact ih.trans ih'

/-- The occurrences of entries have the sums of the entries. -/
theorem tally_singles (c : Comparator α) (es : List (Entry α)) (x : α) :
    c.tally ((es.flatMap Entry.occurrences).map Entry.single) x = c.tally es x := by
  have htimes (y : α) (n : Nat) : c.tally (List.replicate n (Entry.single y)) x =
      if (c.compare y x).isEq then n else 0 := by
    induction n with
    | zero => exact (ite_self 0).symm
    | succ n ih =>
      rw [List.replicate_succ, tally_cons, ih, Nat.add_comm n]
      exact ite_add_ite _ 1 0 n 0
  induction es with
  | nil => rfl
  | cons e es ih =>
    rw [List.flatMap_cons, List.map_append, tally_append, ih, Entry.occurrences,
      List.map_replicate, htimes, tally_cons]

/-- The first of them that compares equal to an element is that of the first entry. -/
theorem find?_singles (hes : ∀ e ∈ es, 1 ≤ e.count) (x : α) :
    (c.find? ((es.flatMap Entry.occurrences).map Entry.single) x).map Entry.element =
      (c.find? es x).map Entry.element := by
  induction es with
  | nil => rfl
  | cons e es ih =>
    obtain ⟨he, hes⟩ := List.forall_mem_cons.mp hes
    have hfirst : c.find? (e.occurrences.map Entry.single) x =
        if (c.compare e.element x).isEq then some (.single e.element) else none := by
      unfold find? Entry.occurrences
      rw [List.map_replicate, List.find?_replicate, if_neg (Nat.ne_of_gt he)]
      rfl
    rw [List.flatMap_cons, List.map_append, find?_append, Option.map_or, hfirst, ih hes, find?_cons]
    split <;> rfl

end Comparator

/-! ## Inserting entries -/

namespace Source

variable {s : Source α} {reg : Registry α} {past : List (Entry α)}

/-- Elements are inserted as entries of one occurrence each. -/
theorem extend_eq_insertEntries (s : Source α) (xs : List α) :
    s.extend xs = s.insertEntries (xs.map Entry.single) := by
  induction xs with
  | nil => rfl
  | cons x xs ih =>
    rw [List.map_cons, extend, insertEntries, ih]
    rfl

theorem multiplicity_of_gathers (hg : s.comparator.Gathers past (reg.contents s.bag).entries)
    (x : α) : (reg.contents s.bag).multiplicity s.comparator x = s.comparator.tally past x := by
  rw [Histogram.multiplicity_eq hg.sorted, hg.tally_eq]

/-- An entry for which there is room is gathered with those from before. -/
theorem insert_gathers (hs : reg.Sound) (hh : reg.Houses (.source s))
    (hg : s.comparator.Gathers past (reg.contents s.bag).entries) {e : Entry α}
    (he : 1 ≤ e.count)
    (hroom : s.comparator.tally past e.element + e.count ≤ maxCount) :
    ∃ reg', (s.insert e.element e.count).perform reg = (.ok (s.previous? reg e.element), reg') ∧
      reg.Moves reg' ∧
      s.comparator.Gathers (past ++ [e]) (reg'.contents s.bag).entries ∧
      ∀ b, b ≠ s.bag → reg'.contents b = reg.contents b := by
  rw [← multiplicity_of_gathers hg] at hroom
  obtain ⟨reg', hinsert, hm, hcontents, hothers⟩ := insert_spec hs hh he hroom
  refine ⟨reg', hinsert, hm, ?_, hothers⟩
  rw [hcontents]
  exact hg.concat e

/-- If every sum is a count, all entries are gathered with those from before. -/
theorem insertEntries_gathers (hs : reg.Sound) (hh : reg.Houses (.source s))
    (hg : s.comparator.Gathers past (reg.contents s.bag).entries)
    (hes : ∀ e ∈ es, 1 ≤ e.count)
    (hfits : ∀ x, s.comparator.tally (past ++ es) x ≤ maxCount) :
    ∃ reg', (s.insertEntries es).perform reg = (.ok (), reg') ∧
      s.comparator.Gathers (past ++ es) (reg'.contents s.bag).entries ∧
      ∀ b, b ≠ s.bag → reg'.contents b = reg.contents b := by
  induction es generalizing reg past with
  | nil =>
    rw [List.append_nil]
    exact ⟨reg, rfl, hg, fun _ _ => rfl⟩
  | cons e es ih =>
    obtain ⟨he, hes⟩ := List.forall_mem_cons.mp hes
    have hroom : s.comparator.tally past e.element + e.count ≤ maxCount := by
      have hle := hfits e.element
      rw [Comparator.tally_append, Comparator.tally_cons, Comparator.compare_self] at hle
      simp only [Ordering.isEq_eq, if_true] at hle
      omega
    obtain ⟨reg₁, hinsert, hm, hg₁, hothers₁⟩ := insert_gathers hs hh hg he hroom
    rw [List.append_cons] at hfits ⊢
    obtain ⟨reg₂, hrest, hg₂, hothers₂⟩ := ih (hs.moves hm) (hh.moves hm) hg₁ hes hfits
    refine ⟨reg₂, ?_, hg₂, fun b hb => (hothers₂ b hb).trans (hothers₁ b hb)⟩
    rw [insertEntries, perform_bind_ok hinsert]
    exact hrest

/-- If some sum is more than a count can be, the insertion of an entry fails. -/
theorem insertEntries_overflows (hs : reg.Sound) (hh : reg.Houses (.source s))
    (hg : s.comparator.Gathers past (reg.contents s.bag).entries)
    (hpast : ∀ x, s.comparator.tally past x ≤ maxCount) (hes : ∀ e ∈ es, 1 ≤ e.count) {x : α}
    (hover : maxCount < s.comparator.tally (past ++ es) x) :
    ∃ reg', (s.insertEntries es).perform reg = (.error .entryOverflow, reg') := by
  induction es generalizing reg past with
  | nil =>
    rw [List.append_nil] at hover
    exact absurd (hpast x) (Nat.not_le.mpr hover)
  | cons e es ih =>
    obtain ⟨he, hes⟩ := List.forall_mem_cons.mp hes
    by_cases hroom : s.comparator.tally past e.element + e.count ≤ maxCount
    · obtain ⟨reg₁, hinsert, hm, hg₁, -⟩ := insert_gathers hs hh hg he hroom
      have hpast' (y : α) : s.comparator.tally (past ++ [e]) y ≤ maxCount := by
        rw [Comparator.tally_concat]
        split
        next hey => rwa [← Comparator.tally_congr (Ordering.isEq_iff_eq_eq.mp hey)]
        next => exact hpast y
      rw [List.append_cons] at hover
      obtain ⟨reg₂, hrest⟩ := ih (hs.moves hm) (hh.moves hm) hg₁ hpast' hes hover
      exact ⟨reg₂, by rw [insertEntries, perform_bind_ok hinsert]; exact hrest⟩
    · rw [← multiplicity_of_gathers hg] at hroom
      exact ⟨reg, perform_bind_error (insert_of_overflow hs.wrapping (Nat.lt_of_not_le hroom))⟩

end Source

/-! ## Making a source -/

section

variable [Ord α] [Std.TransOrd α] {reg : Registry α}

/-- A new source in natural order has an empty bag of its own. -/
theorem Source.makeNatural_spec (hs : reg.Sound) :
    ∃ (b : Source α) (reg' : Registry α),
      (makeNatural : Action α (Source α)).perform reg = (.ok b, reg') ∧
        b.bag = reg.bags.size ∧ b.access = .indexed ∧
        b.comparator = (reg.evaluate .natural).1 ∧ reg'.Sound ∧ reg'.Houses (.source b) ∧
        reg'.contents = reg.contents ∧
        b.comparator.Gathers [] (reg'.contents b.bag).entries := by
  obtain ⟨b, reg', hmake, hbag, haccess, hcomparator⟩ : ∃ b reg',
      (makeNatural : Action α (Source α)).perform reg = (.ok b, reg') ∧
        b.bag = reg.bags.size ∧ b.access = .indexed ∧ b.comparator = (reg.evaluate .natural).1 :=
    ⟨_, _, rfl, rfl, rfl, rfl⟩
  obtain ⟨hm, hlive⟩ := makeNatural_ends reg
  have hcontents := contents_makeNatural reg
  rw [hmake] at hm hlive hcontents
  refine ⟨b, reg', hmake, hbag, haccess, hcomparator, hs.moves hm, (hlive b rfl).1, hcontents, ?_⟩
  have hempty : reg'.contents b.bag = reg.contents reg.bags.size := by rw [hcontents, hbag]
  rw [hempty, Registry.contents, Array.getElem?_size]
  exact .nil b.comparator

namespace Making

variable {t : Table α}

/-- If every sum is a count, a source made of entries has gathered them. -/
theorem ofEntries_gathers (hs : reg.Sound) (t : Table α) (hes : ∀ e ∈ es, 1 ≤ e.count)
    (hfits : ∀ x, (reg.evaluate .natural).1.tally es x ≤ maxCount) :
    ∃ (b : Source α) (reg' : Registry α),
      ((ofEntries es).run t).perform reg = (.ok (.bag (.source b)), reg') ∧
        b.access = .indexed ∧ b.comparator = (reg.evaluate .natural).1 ∧
        b.comparator.Gathers es (reg'.contents b.bag).entries ∧
        ∀ s : Source α, reg.Houses (.source s) → reg'.contents s.bag = reg.contents s.bag := by
  obtain ⟨b, reg₁, hmake, hbag, haccess, hcomparator, hs₁, hh₁, hcontents, hg⟩ :=
    Source.makeNatural_spec hs
  rw [← hcomparator] at hfits
  obtain ⟨reg₂, hinsert, hg₂, hothers⟩ := Source.insertEntries_gathers hs₁ hh₁ hg hes hfits
  refine ⟨b, reg₂, ?_, haccess, hcomparator, hg₂, fun s hsource => ?_⟩
  · exact (perform_bind_ok hmake).trans (perform_bind_ok hinsert)
  · have hne : s.bag ≠ b.bag := hbag ▸ Nat.ne_of_lt (hs.stocked.stocks s hsource).1
    rw [hothers s.bag hne, hcontents]

/-- If some sum is more than a count can be, there is no such source. -/
theorem ofEntries_overflows (hs : reg.Sound) (t : Table α) (hes : ∀ e ∈ es, 1 ≤ e.count) {x : α}
    (hover : maxCount < (reg.evaluate .natural).1.tally es x) :
    ∃ reg', ((ofEntries es).run t).perform reg = (.error .entryOverflow, reg') := by
  obtain ⟨b, reg₁, hmake, -, -, hcomparator, hs₁, hh₁, -, hg⟩ := Source.makeNatural_spec hs
  rw [← hcomparator] at hover
  obtain ⟨reg₂, hinsert⟩ :=
    Source.insertEntries_overflows hs₁ hh₁ hg (fun _ => Nat.zero_le _) hes hover
  exact ⟨reg₂, (perform_bind_ok hmake).trans (perform_bind_error hinsert)⟩

/-- A source is made of elements as of entries of one occurrence each. -/
theorem ofElements_run_eq (t : Table α) (xs : List α) :
    (ofElements xs).run t = (ofEntries (xs.map Entry.single)).run t := by
  simp only [run, Source.extend_eq_insertEntries]

end Making

end

namespace Session

variable [Ord α] [Std.TransOrd α] {s : Session α} {v : View α} {name : String}

/-- A copy of the entries of a bag is a source made of them. -/
theorem Sound.copyEntries_run (hs : s.Sound) (hname : s.table.find? name = some (.bag v))
    (hreach : s.registry.canReach v = true) :
    ((Making.copyEntries name).run s.table).perform s.fresh =
      ((Making.ofEntries (v.listing s.registry.contents)).run s.table).perform s.fresh := by
  have hu : v.Usable s.fresh := (hs.registry.usable (hs.live.find? hname).1 hreach).withLog []
  have hread : (reading v.entries).perform s.fresh =
      (.ok (v.listing s.registry.contents), s.fresh) := by
    rw [perform_reading]
    exact congrArg (·, s.fresh) (View.entries_eq hu)
  exact (perform_bind_ok (Table.perform_bag hname s.fresh)).trans (perform_bind_ok hread)

/-- A copy of its occurrences is a source made of those of its entries. -/
theorem Sound.copyElements_run (hs : s.Sound) (hname : s.table.find? name = some (.bag v))
    (hreach : s.registry.canReach v = true) :
    ((Making.copyElements name).run s.table).perform s.fresh =
      ((Making.ofElements ((v.listing s.registry.contents).flatMap Entry.occurrences)).run
        s.table).perform s.fresh := by
  have hu : v.Usable s.fresh := (hs.registry.usable (hs.live.find? hname).1 hreach).withLog []
  obtain ⟨b, reg, hmake, hbag, -, -, -, -, hcontents, -⟩ := Source.makeNatural_spec hs.fresh
  -- the new bag is not the one that is visited
  have hroot : v.root.bag = b.bag → v.root = b := by
    intro hsame
    have hhouses := (hs.live_fresh.find? hname).1.root hs.fresh.wellFormed
    exact absurd (hsame.trans hbag) (Nat.ne_of_lt (hs.fresh.stocked.stocks v.root hhouses).1)
  obtain ⟨t, hscan, habsorb⟩ := Source.absorb_view hu hroot hcontents
  have hread : (reading fun reg => v.scan reg .ascending).perform s.fresh = (.ok t, s.fresh) := by
    rw [perform_reading]
    exact congrArg (·, s.fresh) hscan
  refine (perform_bind_ok (Table.perform_bag hname s.fresh)).trans ?_
  refine (perform_bind_ok hread).trans ?_
  refine (perform_bind_ok hmake).trans (Eq.trans ?_ (perform_bind_ok hmake).symm)
  rw [perform_bind, perform_bind, habsorb]
  rfl

/-! ## Rebuilt bags -/

variable [Shown α] {m m' : Making α}

/-- What is made by the same action leads to the same session. -/
theorem step_bind_congr
    (h : (m.run s.table).perform s.fresh = (m'.run s.table).perform s.fresh) (new : String)
    (watched : List String) : s.step watched (.bind new m) = s.step watched (.bind new m') := by
  have hrun : ((Command.bind new m).run s.table).perform s.fresh =
      ((Command.bind new m').run s.table).perform s.fresh := by
    show (m.run s.table >>= fun h => pure (Answer.done, s.table.bind new h)).perform s.fresh =
      (m'.run s.table >>= fun h => pure (Answer.done, s.table.bind new h)).perform s.fresh
    rw [perform_bind, perform_bind, h]
  rcases hp : ((Command.bind new m').run s.table).perform s.fresh with ⟨o, reg⟩
  rw [step_of_perform watched (hrun.trans hp), step_of_perform watched hp]

/-- The name stands for an indexed source with these entries, sorted by this comparator. -/
def Holds (s : Session α) (name : String) (c : Comparator α) (fs : List (Entry α)) : Prop :=
  ∃ b : Source α, s.table.find? name = some (.bag (.source b)) ∧ b.access = .indexed ∧
    b.comparator = c ∧ s.Lists (.source b) fs ∧
    ∀ x, s.Reads (.askBag name (.count x)) (.number (c.tally fs x))

/-- What is made is a source with these entries, unless one of them is too large. -/
structure Rebuilds (s : Session α) (m : Making α) (c : Comparator α) (fs : List (Entry α)) :
    Prop where
  /-- The source holds the entries, and all others stay as they are. -/
  made : (∀ f ∈ fs, f.count ≤ maxCount) → ∀ new watched,
    (s.step watched (.bind new m)).1.outcome = .ok .done ∧
    (s.step watched (.bind new m)).2.Holds new c fs ∧
    ∀ b : Source α, s.registry.Houses (.source b) →
      (s.step watched (.bind new m)).2.registry.contents b.bag = s.registry.contents b.bag
  /-- No source can hold an entry that is too large. -/
  refused : ∀ f ∈ fs, maxCount < f.count → ∀ new watched,
    (s.step watched (.bind new m)).1.outcome = .error .entryOverflow

theorem Rebuilds.congr {c : Comparator α} {fs : List (Entry α)} (h : s.Rebuilds m c fs)
    (hsame : (m'.run s.table).perform s.fresh = (m.run s.table).perform s.fresh) :
    s.Rebuilds m' c fs where
  made hfits new watched := by
    rw [step_bind_congr hsame]
    exact h.made hfits new watched
  refused f hf hover new watched := by
    rw [step_bind_congr hsame]
    exact h.refused f hf hover new watched

/-- An indexed source holds the entries of its bag. -/
theorem Sound.holds (hs : s.Sound) {b : Source α}
    (hname : s.table.find? name = some (.bag (.source b))) (haccess : b.access = .indexed) :
    s.Holds name b.comparator (s.registry.contents b.bag).entries := by
  have hvalid := (hs.registry.stocked.stocks b (hs.live.find? hname).1).2
  refine ⟨b, hname, haccess, rfl, hs.lists rfl, fun x => ?_⟩
  rw [Comparator.tally_eq _ hvalid.sorted]
  exact hs.reads_bag hname rfl (.inr (by simp [View.root, haccess])) rfl rfl

/-- A source that is made of entries holds what they come to. -/
theorem Sound.ofEntries (hs : s.Sound) {es fs : List (Entry α)} (hes : ∀ e ∈ es, e.Valid)
    (hg : (s.registry.evaluate .natural).1.Gathers es fs) :
    s.Rebuilds (.ofEntries es) (s.registry.evaluate .natural).1 fs where
  made hfits new watched := by
    obtain ⟨b, reg, hrun, haccess, hcomparator, hg', hothers⟩ :=
      Making.ofEntries_gathers hs.fresh s.table (fun e he => (hes e he).1) (hg.fits_iff.mp hfits)
    have hcomparator : b.comparator = (s.registry.evaluate .natural).1 := hcomparator
    obtain ⟨hout, hafter⟩ := step_of_ok (c := .bind new (.ofEntries es)) watched
      (perform_bind_ok hrun)
    have hs' := hs.step (c := .bind new (.ofEntries es)) hes watched
    rw [hafter] at hs' ⊢
    have hholds := hs'.holds (Table.find?_bind_self s.table new _) haccess
    simp only [Registry.contents_release] at hholds ⊢
    rw [hcomparator] at hg' hholds
    rw [hg'.unique hg] at hholds
    exact ⟨hout, hholds, fun b' hh => hothers b' (hh.moves s.moves_fresh)⟩
  refused f hf hover new watched := by
    have hlarge : ¬ ∀ x, (s.registry.evaluate .natural).1.tally es x ≤ maxCount := fun hall =>
      Nat.not_le.mpr hover (hg.fits_iff.mpr hall f hf)
    obtain ⟨x, hx⟩ := not_forall.mp hlarge
    obtain ⟨reg, hrun⟩ := Making.ofEntries_overflows hs.fresh s.table (fun e he => (hes e he).1)
      (Nat.lt_of_not_le hx)
    exact (step_of_error watched (perform_bind_error hrun)).1

/-- A copy of the entries of a bag holds what they come to, and so does a copy of the
occurrences. -/
theorem Sound.copies (hs : s.Sound) (hname : s.table.find? name = some (.bag v))
    (hreach : s.registry.canReach v = true) {fs : List (Entry α)}
    (hg : (s.registry.evaluate .natural).1.Gathers (v.listing s.registry.contents) fs) :
    s.Rebuilds (.copyEntries name) (s.registry.evaluate .natural).1 fs ∧
      s.Rebuilds (.copyElements name) (s.registry.evaluate .natural).1 fs := by
  have hvalid := (hs.registry.usable (hs.live.find? hname).1 hreach).valid
  have hes : ∀ e ∈ v.listing s.registry.contents, e.Valid := fun e he =>
    hvalid.counts e (View.mem_listing.mp he).1
  refine ⟨(hs.ofEntries hes hg).congr (hs.copyEntries_run hname hreach), ?_⟩
  let singles := ((v.listing s.registry.contents).flatMap Entry.occurrences).map Entry.single
  have hsingles : ∀ e ∈ singles, e.Valid := by
    intro e he
    obtain ⟨x, -, rfl⟩ := List.mem_map.mp he
    exact Entry.valid_single x
  have hg' := (s.registry.evaluate (.natural : Order α)).1.gathers_gather singles
  have hsame := hg'.eq_of_same hg (Comparator.find?_singles fun e he => (hes e he).1)
    (Comparator.tally_singles _ _)
  rw [hsame] at hg'
  refine (hs.ofEntries hsingles hg').congr ?_
  rw [hs.copyElements_run hname hreach, Making.ofElements_run_eq]

/-- The two ways to make a source both fail, or the sources answer alike how often an element
occurs. -/
def CountAlike (s : Session α) (m m' : Making α) : Prop :=
  ∀ new watched,
    (s.step watched (.bind new m)).1.outcome = (s.step watched (.bind new m')).1.outcome ∧
    ((s.step watched (.bind new m)).1.outcome = .ok .done → ∀ x, ∃ n : Nat,
      (s.step watched (.bind new m)).2.Reads (.askBag new (.count x)) (.number n) ∧
      (s.step watched (.bind new m')).2.Reads (.askBag new (.count x)) (.number n))

/-- Sources whose entries come to the same sums count alike. -/
theorem Rebuilds.countAlike {c : Comparator α} {es es' fs fs' : List (Entry α)}
    (h : s.Rebuilds m c fs) (h' : s.Rebuilds m' c fs') (hg : c.Gathers es fs)
    (hg' : c.Gathers es' fs') (hsame : ∀ x, c.tally es x = c.tally es' x) :
    s.CountAlike m m' := by
  intro new watched
  by_cases hfits : ∀ f ∈ fs, f.count ≤ maxCount
  · have hfits' : ∀ f ∈ fs', f.count ≤ maxCount := by
      rw [hg'.fits_iff]
      intro x
      rw [← hsame]
      exact hg.fits_iff.mp hfits x
    obtain ⟨hout, ⟨b, -, -, -, -, hcount⟩, -⟩ := h.made hfits new watched
    obtain ⟨hout', ⟨b', -, -, -, -, hcount'⟩, -⟩ := h'.made hfits' new watched
    refine ⟨hout.trans hout'.symm, fun _ x => ⟨c.tally fs x, hcount x, ?_⟩⟩
    rw [hg.tally_eq, hsame, ← hg'.tally_eq]
    exact hcount' x
  · have hfits' : ¬ ∀ f ∈ fs', f.count ≤ maxCount := by
      rw [hg'.fits_iff]
      simp only [← hsame]
      rwa [← hg.fits_iff]
    push Not at hfits hfits'
    obtain ⟨f, hf, hover⟩ := hfits
    obtain ⟨f', hf', hover'⟩ := hfits'
    have hout := h.refused f hf hover new watched
    rw [hout, h'.refused f' hf' hover' new watched]
    exact ⟨rfl, nofun⟩

/-- A bag can be copied by its entries and by its occurrences. Either copy holds what the entries
come to in natural order, whatever the order of the bag is, unless a count would become too large,
which cannot be as long as the total is a count. If the source behind the bag is sorted naturally
itself, under an even number of descending views, this is what the bag lists. A source that is made
of any entries holds what they come to as well, and it counts alike if they are put into another
order or if some of them are split. -/
theorem rebuilt_sources_gather (hs : s.Reachable) (hname : s.table.find? name = some (.bag v))
    (hreach : s.registry.canReach v = true) :
    ∃ (c : Comparator α) (es fs : List (Entry α)),
      (∀ x y, c.compare x y = compare x y) ∧
      s.Reads (.askBag name (.entries .ascending)) (.entries es) ∧
      c.Gathers es fs ∧
      (totalCount es ≤ maxCount → ∀ f ∈ fs, f.count ≤ maxCount) ∧
      s.Rebuilds (.copyEntries name) c fs ∧
      s.Rebuilds (.copyElements name) c fs ∧
      ((∀ x y, v.root.comparator.compare x y = compare x y) → v.layers % 2 = 0 →
        fs = es ∧ ∀ f ∈ fs, f.count ≤ maxCount) ∧
      (∀ ds : List (Entry α), (∀ e ∈ ds, e.Valid) →
        ∃ gs : List (Entry α), c.Gathers ds gs ∧
          (totalCount ds ≤ maxCount → ∀ f ∈ gs, f.count ≤ maxCount) ∧
          s.Rebuilds (.ofEntries ds) c gs) ∧
      ∀ ds ds' : List (Entry α), (∀ e ∈ ds, e.Valid) → (∀ e ∈ ds', e.Valid) →
        Entry.Rearranges ds ds' → s.CountAlike (.ofEntries ds) (.ofEntries ds') := by
  have hsound := hs.sound
  let c : Comparator α := (s.registry.evaluate .natural).1
  have hfits {es fs : List (Entry α)} (hg : c.Gathers es fs) (htotal : totalCount es ≤ maxCount) :
      ∀ f ∈ fs, f.count ≤ maxCount :=
    hg.fits_iff.mpr fun x => Nat.le_trans (c.tally_le_totalCount es x) htotal
  have hgather := c.gathers_gather (v.listing s.registry.contents)
  obtain ⟨hentries, helements⟩ := hsound.copies hname hreach hgather
  refine ⟨c, v.listing s.registry.contents, c.gather (v.listing s.registry.contents),
    fun _ _ => rfl, hsound.reads_bag hname hreach (.inl rfl) rfl rfl, hgather, hfits hgather,
    hentries, helements, ?_, ?_, ?_⟩
  · intro hnatural heven
    have hvalid := (hsound.registry.usable (hsound.live.find? hname).1 hreach).valid
    have horder : v.order = v.root.comparator := by rw [v.order_eq_layers, if_pos heven]
    have hsorted : (v.listing s.registry.contents).Pairwise c.Precedes := by
      refine (View.pairwise_listing hvalid.sorted).imp fun {d e} hde => ?_
      rw [Comparator.Precedes, horder, hnatural] at hde
      exact hde
    have heq := hgather.unique (.of_sorted hsorted)
    rw [heq]
    exact ⟨rfl, fun f hf => (hvalid.counts f (View.mem_listing.mp hf).1).2⟩
  · intro ds hds
    have hg := c.gathers_gather ds
    exact ⟨_, hg, hfits hg, hsound.ofEntries hds hg⟩
  · intro ds ds' hds hds' hrearranged
    have hg := c.gathers_gather ds
    have hg' := c.gathers_gather ds'
    exact (hsound.ofEntries hds hg).countAlike (hsound.ofEntries hds' hg') hg hg'
      (c.tally_rearranges hrearranged)

/-- One, three times three, and five: a copy of the reversed bag has them in natural order again. If
some of the threes come later than others, they are counted alike. -/
theorem rebuilt_sources_gather_threeMore :
    (threeMore.step [] (.bind "n" (.copyEntries "d"))).2.Reads (.askBag "n" (.entries .ascending))
        (.entries [⟨1, 1⟩, ⟨3, 3⟩, ⟨5, 1⟩]) ∧
      (threeMore.step [] (.bind "n" (.copyElements "d"))).2.Reads
        (.askBag "n" (.entries .ascending)) (.entries [⟨1, 1⟩, ⟨3, 3⟩, ⟨5, 1⟩]) ∧
      threeMore.CountAlike (.ofEntries [⟨3, 3⟩, ⟨1, 1⟩]) (.ofEntries [⟨3, 1⟩, ⟨1, 1⟩, ⟨3, 2⟩]) := by
  let w : View Int := .descending (some 1) .weak (.source ⟨0, 0, ⟨0, .natural, false⟩, .indexed⟩)
  have hs : threeMore.Reachable :=
    threeReversed_reachable.next (c := .change "s" (.insertMany 3 2)) ⟨by decide, by decide⟩ []
  have hd : threeMore.table.find? "d" = some (.bag w) := rfl
  obtain ⟨c, es, fs, hnatural, hreads, hg, hfits, hentries, helements, -, -, halike⟩ :=
    rebuilt_sources_gather hs hd rfl
  have hlists : threeMore.Lists w (w.listing threeMore.registry.contents) := hs.sound.lists rfl
  obtain rfl : [⟨5, 1⟩, ⟨3, 3⟩, ⟨1, 1⟩] = es :=
    Answer.entries.inj ((hlists "d" hd).1.unique hreads)
  obtain rfl : [⟨1, 1⟩, ⟨3, 3⟩, ⟨5, 1⟩] = fs := by
    rw [hg.unique (c.gathers_gather _)]
    have h₁ : compare (3 : Int) 5 = .lt := rfl
    have h₂ : compare (1 : Int) 3 = .lt := rfl
    simp only [Comparator.gather, List.foldl_cons, List.foldl_nil, Histogram.addTo, hnatural, h₁,
      h₂]
  obtain ⟨-, ⟨b, hb, -, -, hlists, -⟩, -⟩ := hentries.made (hfits (by decide)) "n" []
  obtain ⟨-, ⟨b', hb', -, -, hshows, -⟩, -⟩ := helements.made (hfits (by decide)) "n" []
  refine ⟨(hlists "n" hb).1, (hshows "n" hb').1, halike _ _ ?_ ?_ ?_⟩
  · simp [Entry.Valid, maxCount]
  · simp [Entry.Valid, maxCount]
  · exact .trans (.split [] 3 1 2 [⟨1, 1⟩]) (.permute ((List.Perm.swap _ _ []).cons _))

end Session

end OrderedBag
