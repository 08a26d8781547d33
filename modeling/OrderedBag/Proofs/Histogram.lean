import OrderedBag.Histogram
import OrderedBag.Proofs.Interval

/-!
# Sorted contents

The entries of a bag are strictly increasing, so at most one of them compares equal to a given
element. Taking an entry out therefore leaves all the others, and every operation on the contents
keeps `Histogram.Valid`.

* `List.Pairwise.dropWhile_eq_filter`, `List.Pairwise.takeWhile_eq_filter` — on a sorted list,
  skipping and stopping are filtering
* `Histogram.Valid.insert?`, `removeOne`, `erase`, `eraseExtreme` — the operations keep contents
  valid
* `Histogram.Valid.entries_erase` — removing an element leaves the entries that differ from it
-/

namespace List

variable {α : Type} {p : α → Bool} {l : List α}

/-- Skipping is filtering if what is skipped comes first. -/
theorem Pairwise.dropWhile_eq_filter (h : l.Pairwise fun x y => p y = true → p x = true) :
    l.dropWhile p = l.filter fun x => !p x := by
  induction l with
  | nil => rfl
  | cons a l ih =>
    obtain ⟨ha, hl⟩ := pairwise_cons.mp h
    cases hp : p a with
    | true => simp [hp, ih hl]
    | false =>
      have hall : ∀ b ∈ l, (!p b) = true := by
        intro b hb
        cases hpb : p b with
        | false => rfl
        | true => rw [ha b hb hpb] at hp; simp at hp
      rw [dropWhile_cons_of_neg (by simp [hp]), filter_cons_of_pos (by simp [hp]),
        filter_eq_self.mpr hall]

/-- Stopping is filtering if what is stopped at comes last. -/
theorem Pairwise.takeWhile_eq_filter (h : l.Pairwise fun x y => p y = true → p x = true) :
    l.takeWhile p = l.filter p := by
  induction l with
  | nil => rfl
  | cons a l ih =>
    obtain ⟨ha, hl⟩ := pairwise_cons.mp h
    cases hp : p a with
    | true => simp [hp, ih hl]
    | false =>
      have hnone : ∀ b ∈ l, ¬p b = true := by
        intro b hb hpb
        rw [ha b hb hpb] at hp
        simp at hp
      rw [takeWhile_cons_of_neg (by simp [hp]), filter_cons_of_neg (by simp [hp]),
        filter_eq_nil_iff.mpr hnone]

/-- What fulfils a condition is the first that does so, or follows it. -/
theorem Pairwise.eq_or_of_find? {R : α → α → Prop} (h : l.Pairwise R) {x y : α}
    (hfind : l.find? p = some x) (hy : y ∈ l) (hpy : p y = true) : y = x ∨ R x y := by
  obtain ⟨-, before, behind, rfl, hbefore⟩ := find?_eq_some_iff_append.mp hfind
  rcases mem_append.mp hy with hy | hy
  · simpa [hpy] using hbefore y hy
  · exact (mem_cons.mp hy).imp_right ((pairwise_cons.mp (pairwise_append.mp h).2.1).1 y)

/-- Erasing the first of at most one is filtering. -/
theorem Pairwise.eraseP_eq_filter (h : l.Pairwise fun x y => p x = true → p y = false) :
    l.eraseP p = l.filter fun x => !p x := by
  induction l with
  | nil => rfl
  | cons a l ih =>
    obtain ⟨ha, hl⟩ := pairwise_cons.mp h
    cases hp : p a with
    | true =>
      have hall : ∀ b ∈ l, (!p b) = true := fun b hb => by rw [ha b hb hp]; rfl
      rw [eraseP_cons_of_pos hp, filter_cons_of_neg (by simp [hp]), filter_eq_self.mpr hall]
    | false => rw [eraseP_cons_of_neg (by simp [hp]), filter_cons_of_pos (by simp [hp]), ih hl]

end List

namespace OrderedBag

open Std

variable {α : Type}

/-- Whether an entry comes strictly before another one. -/
abbrev Comparator.Precedes (c : Comparator α) (d e : Entry α) : Prop :=
  c.compare d.element e.element = .lt

namespace Comparator

variable {c : Comparator α} {es : List (Entry α)}

theorem pairwise_reverse (h : es.Pairwise c.Precedes) :
    es.reverse.Pairwise c.reversed.Precedes := by
  rw [List.pairwise_reverse]
  refine h.imp ?_
  intro d e hde
  rw [Precedes, reversed_compare]
  exact hde

/-- At most one entry compares equal to an element. -/
theorem pairwise_isEq (h : es.Pairwise c.Precedes) (x : α) :
    es.Pairwise fun d e =>
      (c.compare d.element x).isEq = true → (c.compare e.element x).isEq = false := by
  refine h.imp ?_
  intro d e hde hd
  rw [Ordering.isEq_iff_eq_eq] at hd
  have hxe : c.compare x e.element = .lt := TransCmp.lt_of_eq_of_lt (eq_symm hd) hde
  rw [OrientedCmp.gt_of_lt hxe]
  rfl

/-- The entry that compares equal to an element is the one that is found. -/
theorem find?_eq_some (h : es.Pairwise c.Precedes) {e : Entry α} {x : α} (he : e ∈ es)
    (hx : c.compare e.element x = .eq) :
    (es.find? fun e => (c.compare e.element x).isEq) = some e := by
  induction es with
  | nil => simp at he
  | cons d es ih =>
    obtain ⟨hd, hes⟩ := List.pairwise_cons.mp h
    rcases List.mem_cons.mp he with rfl | he
    · exact List.find?_cons_of_pos (by simp [hx])
    · have hdx : c.compare d.element x = .lt := TransCmp.lt_of_lt_of_eq (hd e he) hx
      rw [List.find?_cons_of_neg (by simp [hdx])]
      exact ih hes he

/-- Without the entry of an element, exactly the entries that differ from it are left. -/
theorem eraseP_eq_filter (h : es.Pairwise c.Precedes) (x : α) :
    (es.eraseP fun e => (c.compare e.element x).isEq) =
      es.filter fun e => !(c.compare e.element x).isEq :=
  (pairwise_isEq h x).eraseP_eq_filter

/-- Without the element of the extreme entry, the rest of the list is left. -/
theorem filter_eq_dropExtreme (h : es.Pairwise c.Precedes) {d : Direction} {e : Entry α}
    (he : d.extreme? es = some e) :
    (es.filter fun f => !(c.compare f.element e.element).isEq) = d.dropExtreme es := by
  have hdistinct : (d.orient es).Pairwise fun f g => c.compare f.element g.element ≠ .eq := by
    cases d with
    | ascending => exact h.imp fun {f g} hfg => by simp [hfg]
    | descending =>
      exact (pairwise_reverse h).imp fun {f g} hfg heq => by
        rw [Precedes, compare_reversed, heq] at hfg
        simp at hfg
  -- in the direction `d` the entry that goes is the head of the list
  rw [Direction.orient_of_extreme? he] at hdistinct
  have hrest : ∀ f ∈ d.orient (d.dropExtreme es),
      (!(c.compare f.element e.element).isEq) = true := by
    intro f hf
    have hef := (List.pairwise_cons.mp hdistinct).1 f hf
    cases hfe : c.compare f.element e.element with
    | eq => exact absurd (eq_symm hfe) hef
    | _ => rfl
  have hdrop : d.orient (es.filter fun f => !(c.compare f.element e.element).isEq) =
      d.orient (d.dropExtreme es) := by
    rw [← Direction.filter_orient, Direction.orient_of_extreme? he,
      List.filter_cons_of_neg (by simp [compare_self]), List.filter_eq_self.mpr hrest]
  rw [← Direction.orient_orient d (es.filter _), hdrop, Direction.orient_orient]

end Comparator

theorem totalCount_eraseP {p : Entry α → Bool} {es : List (Entry α)} {e : Entry α}
    (h : es.find? p = some e) : totalCount (es.eraseP p) + e.count = totalCount es := by
  induction es with
  | nil => simp at h
  | cons d es ih =>
    cases hp : p d with
    | true =>
      rw [List.find?_cons_of_pos hp, Option.some.injEq] at h
      rw [List.eraseP_cons_of_pos hp, totalCount_cons, h, Nat.add_comm]
    | false =>
      rw [List.find?_cons_of_neg (by simp [hp])] at h
      rw [List.eraseP_cons_of_neg (by simp [hp]), totalCount_cons, totalCount_cons, ← ih h,
        Nat.add_assoc]

/-- A part of a list has no more occurrences. -/
theorem totalCount_le_of_sublist {es fs : List (Entry α)} (h : es.Sublist fs) :
    totalCount es ≤ totalCount fs := by
  induction h with
  | slnil => exact Nat.le_refl _
  | cons e _ ih => exact Nat.le_trans ih (Nat.le_add_left _ _)
  | cons_cons e _ ih => exact Nat.add_le_add_left ih _

theorem totalCount_orient (d : Direction) (es : List (Entry α)) :
    totalCount (d.orient es) = totalCount es := by
  cases d <;> simp [Direction.orient]

theorem totalCount_dropExtreme {d : Direction} {es : List (Entry α)} {e : Entry α}
    (h : d.extreme? es = some e) : totalCount (d.dropExtreme es) + e.count = totalCount es := by
  rw [← totalCount_orient d es, Direction.orient_of_extreme? h, totalCount_cons, totalCount_orient,
    Nat.add_comm]

namespace Histogram

/-! ## Insertion -/

/-- An insertion adds at most the inserted element. -/
theorem element_of_mem_addTo {c : Comparator α} {x : α} {n : Nat} {es : List (Entry α)}
    {e : Entry α} (he : e ∈ addTo c x n es) :
    e.element = x ∨ ∃ f ∈ es, f.element = e.element := by
  induction es with
  | nil => left; simp_all [addTo]
  | cons d es ih =>
    unfold addTo at he
    split at he
    · rcases List.mem_cons.mp he with rfl | he
      · exact Or.inl rfl
      · exact Or.inr ⟨e, he, rfl⟩
    · rcases List.mem_cons.mp he with rfl | he
      · exact Or.inr ⟨d, by simp, rfl⟩
      · exact Or.inr ⟨e, by simp [he], rfl⟩
    · rcases List.mem_cons.mp he with rfl | he
      · exact Or.inr ⟨e, by simp, rfl⟩
      · rcases ih he with h | ⟨f, hf, hfe⟩
        · exact Or.inl h
        · exact Or.inr ⟨f, by simp [hf], hfe⟩

theorem pairwise_addTo {c : Comparator α} {es : List (Entry α)} (h : es.Pairwise c.Precedes)
    (x : α) (n : Nat) : (addTo c x n es).Pairwise c.Precedes := by
  induction es with
  | nil => simp [addTo]
  | cons d es ih =>
    obtain ⟨hd, hes⟩ := List.pairwise_cons.mp h
    unfold addTo
    split
    next hlt =>
      refine List.pairwise_cons.mpr ⟨?_, h⟩
      intro e he
      rcases List.mem_cons.mp he with rfl | he
      · exact hlt
      · exact TransCmp.lt_trans hlt (hd e he)
    next => exact List.pairwise_cons.mpr ⟨hd, hes⟩
    next hgt =>
      refine List.pairwise_cons.mpr ⟨?_, ih hes⟩
      intro e he
      rcases element_of_mem_addTo he with hx | ⟨f, hf, hfe⟩
      · rw [Comparator.Precedes, hx]
        exact OrientedCmp.lt_of_gt hgt
      · rw [Comparator.Precedes, ← hfe]
        exact hd f hf

/-- The counts after an insertion: old ones, the inserted one, or their sum. -/
theorem count_of_mem_addTo {c : Comparator α} {x : α} {n : Nat} {es : List (Entry α)}
    {e : Entry α} (he : e ∈ addTo c x n es) :
    e ∈ es ∨ e.count = n ∨
      ∃ f ∈ es, c.compare f.element x = .eq ∧ e.count = f.count + n := by
  induction es with
  | nil => right; left; simp_all [addTo]
  | cons d es ih =>
    unfold addTo at he
    split at he
    next =>
      rcases List.mem_cons.mp he with rfl | he
      · exact Or.inr (Or.inl rfl)
      · exact Or.inl he
    next heq =>
      rcases List.mem_cons.mp he with rfl | he
      · exact Or.inr (Or.inr ⟨d, by simp, Comparator.eq_symm heq, rfl⟩)
      · exact Or.inl (by simp [he])
    next =>
      rcases List.mem_cons.mp he with rfl | he
      · exact Or.inl (by simp)
      · rcases ih he with h | h | ⟨f, hf, hfx, hfe⟩
        · exact Or.inl (by simp [h])
        · exact Or.inr (Or.inl h)
        · exact Or.inr (Or.inr ⟨f, by simp [hf], hfx, hfe⟩)

/-! ## Removal of one occurrence -/

theorem pairwise_removeFrom {c : Comparator α} {es : List (Entry α)} (h : es.Pairwise c.Precedes)
    (x : α) : (removeFrom c x es).Pairwise c.Precedes ∧
      ∀ e ∈ removeFrom c x es, ∃ f ∈ es, f.element = e.element := by
  induction es with
  | nil => simp [removeFrom]
  | cons d es ih =>
    obtain ⟨hd, hes⟩ := List.pairwise_cons.mp h
    -- that no element is new is what keeps the head in order
    obtain ⟨hsorted, helements⟩ := ih hes
    unfold removeFrom
    split
    · split
      · exact ⟨hes, fun e he => ⟨e, by simp [he], rfl⟩⟩
      · refine ⟨List.pairwise_cons.mpr ⟨hd, hes⟩, ?_⟩
        intro e he
        rcases List.mem_cons.mp he with rfl | he
        · exact ⟨d, by simp, rfl⟩
        · exact ⟨e, by simp [he], rfl⟩
    · constructor
      · refine List.pairwise_cons.mpr ⟨?_, hsorted⟩
        intro e he
        obtain ⟨f, hf, hfe⟩ := helements e he
        rw [Comparator.Precedes, ← hfe]
        exact hd f hf
      · intro e he
        rcases List.mem_cons.mp he with rfl | he
        · exact ⟨e, by simp, rfl⟩
        · obtain ⟨f, hf, hfe⟩ := helements e he
          exact ⟨f, by simp [hf], hfe⟩

theorem valid_of_mem_removeFrom {c : Comparator α} {x : α} {es : List (Entry α)}
    (h : ∀ e ∈ es, e.Valid) : ∀ e ∈ removeFrom c x es, e.Valid := by
  induction es with
  | nil => simp [removeFrom]
  | cons d es ih =>
    obtain ⟨hd, hes⟩ := List.forall_mem_cons.mp h
    unfold removeFrom
    split
    · split
      · exact hes
      · refine List.forall_mem_cons.mpr ⟨?_, hes⟩
        obtain ⟨h1, h2⟩ := hd
        exact ⟨by simp only; omega, by simp only; omega⟩
    · exact List.forall_mem_cons.mpr ⟨hd, ih hes⟩

theorem totalCount_removeFrom {c : Comparator α} {x : α} {es : List (Entry α)} {e : Entry α}
    (h : ∀ e ∈ es, e.Valid) (hx : (es.find? fun e => (c.compare e.element x).isEq) = some e) :
    totalCount (removeFrom c x es) + 1 = totalCount es := by
  induction es with
  | nil => simp at hx
  | cons d es ih =>
    obtain ⟨⟨h1, -⟩, hes⟩ := List.forall_mem_cons.mp h
    unfold removeFrom
    split
    · split
      · rw [totalCount_cons]; omega
      · rw [totalCount_cons, totalCount_cons]; simp only; omega
    next hne =>
      rw [List.find?_cons_of_neg (by exact hne)] at hx
      rw [totalCount_cons, totalCount_cons, ← ih hes hx, Nat.add_assoc]

/-! ## Valid contents stay valid -/

namespace Valid

variable {c : Comparator α} {h : Histogram α}

theorem insert? (hv : h.Valid c) {x : α} {n : Nat} (hn : 1 ≤ n) {h' : Histogram α}
    (hi : h.insert? c x n = some h') : h'.Valid c := by
  unfold Histogram.insert? at hi
  split at hi
  next hle =>
    rw [← Option.some.inj hi]
    refine ⟨pairwise_addTo hv.sorted x n, ?_, ?_⟩
    · intro e he
      -- the bound on the sum is what the insertion checks
      rcases count_of_mem_addTo he with hold | hnew | ⟨f, hf, hfx, hsum⟩
      · exact hv.counts e hold
      · exact ⟨by omega, by omega⟩
      · have hm : h.multiplicity c x = f.count := by
          unfold multiplicity Histogram.find?
          rw [Comparator.find?_eq_some hv.sorted hf hfx]
          rfl
        exact ⟨by omega, by omega⟩
    · simp only [totalCount_addTo, hv.total_eq, wrap_wrap_add]
  next => simp at hi

theorem removeOne (hv : h.Valid c) (x : α) : (h.removeOne c x).Valid c := by
  unfold Histogram.removeOne
  split
  next e he =>
    refine ⟨(pairwise_removeFrom hv.sorted x).1, valid_of_mem_removeFrom hv.counts, ?_⟩
    show wrapSub h.total 1 = _
    rw [hv.total_eq, ← totalCount_removeFrom hv.counts he, wrapSub_wrap_add _ (by decide)]
  next => exact hv

/-- Removing an element leaves exactly the entries that differ from it. -/
theorem entries_erase (hv : h.Valid c) (x : α) :
    (h.erase c x).entries = h.entries.filter fun e => !(c.compare e.element x).isEq := by
  rw [← Comparator.eraseP_eq_filter hv.sorted]
  unfold Histogram.erase
  split
  · rfl
  next hnone =>
    refine (List.eraseP_of_forall_not ?_).symm
    exact List.find?_eq_none.mp hnone

theorem erase (hv : h.Valid c) (x : α) : (h.erase c x).Valid c := by
  unfold Histogram.erase
  split
  next e he =>
    refine ⟨hv.sorted.sublist List.eraseP_sublist, ?_, ?_⟩
    · exact fun f hf => hv.counts f (List.mem_of_mem_eraseP hf)
    · show wrapSub h.total e.count = _
      rw [hv.total_eq, ← totalCount_eraseP he,
        wrapSub_wrap_add _ (hv.counts e (List.mem_of_find?_eq_some he)).2]
  next => exact hv

theorem eraseExtreme (hv : h.Valid c) (d : Direction) : (h.eraseExtreme d).Valid c := by
  unfold Histogram.eraseExtreme
  split
  next e he =>
    have hsub : (d.dropExtreme h.entries).Sublist h.entries := by
      cases d with
      | ascending => exact List.tail_sublist _
      | descending => exact List.dropLast_sublist _
    refine ⟨hv.sorted.sublist hsub, fun f hf => hv.counts f (hsub.subset hf), ?_⟩
    show wrapSub h.total e.count = _
    rw [hv.total_eq, ← totalCount_dropExtreme he,
      wrapSub_wrap_add _ (hv.counts e (Direction.mem_of_extreme? he)).2]
  next => exact hv

/-- Taking the extreme entry off an end is removing its element. -/
theorem entries_eraseExtreme (hv : h.Valid c) {d : Direction} {e : Entry α}
    (he : d.extreme? h.entries = some e) :
    (h.eraseExtreme d).entries = (h.erase c e.element).entries := by
  rw [hv.entries_erase, Comparator.filter_eq_dropExtreme hv.sorted he]
  unfold Histogram.eraseExtreme
  rw [he]

theorem total_le (hv : h.Valid c) : h.total ≤ maxCount :=
  hv.total_eq ▸ wrap_le _

/-- Valid contents have no occurrence exactly when they have no entry. -/
theorem totalCount_eq_zero_iff (hv : h.Valid c) : totalCount h.entries = 0 ↔ h.entries = [] := by
  cases hes : h.entries with
  | nil => simp
  | cons e es =>
    have he : 1 ≤ e.count := (hv.counts e (by simp [hes])).1
    simp only [totalCount_cons, reduceCtorEq, iff_false]
    omega

end Valid

end Histogram

end OrderedBag
