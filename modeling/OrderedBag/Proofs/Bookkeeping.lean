import OrderedBag.Proofs.Lookup

/-!
# Bookkeeping

Whoever writes down what comes into a bag and what goes out of it can tell the contents of the bag:
an element occurs as often as it came, less the times that it went, and its entry keeps the element
that came when there was none.

* `Event`, `History` — what is written down
* `History.balance`, `History.entry?` — what can be told from it about an element
* `Histogram.Accounts` — the contents are what can be told
* `Histogram.Accounts.find?_eq` — so the entry of an element is the one that can be told
* `Histogram.Accounts.insert`, `removeOne`, `erase`, `empty` — every operation on the contents can
  be written down
-/

namespace OrderedBag

open Std

variable {α : Type} {c : Comparator α}

/-- Something that happened to the contents of a bag. -/
inductive Event (α : Type)
  /-- Occurrences of an element came. -/
  | inserted (x : α) (n : Nat)
  /-- Occurrences of an element went. -/
  | removed (x : α) (n : Nat)
  /-- All occurrences of an element went. -/
  | emptied (x : α)
  /-- All occurrences of all elements went. -/
  | cleared

/-- What happened to the contents of a bag, from the latest event back to the first. -/
abbrev History (α : Type) := List (Event α)

namespace History

/-- How many occurrences of `x` came. -/
def inserted (c : Comparator α) (x : α) : History α → Nat
  | [] => 0
  | .inserted y n :: past => (if (c.compare y x).isEq then n else 0) + inserted c x past
  | .removed _ _ :: past | .emptied _ :: past | .cleared :: past => inserted c x past

/-- How many of them went. -/
def removed (c : Comparator α) (x : α) : History α → Nat
  | [] => 0
  | .inserted _ _ :: past => removed c x past
  | .removed y n :: past => (if (c.compare y x).isEq then n else 0) + removed c x past
  | .emptied y :: past =>
    if (c.compare y x).isEq then inserted c x past else removed c x past
  | .cleared :: past => inserted c x past

/-- How many there are. -/
def balance (c : Comparator α) (x : α) (past : History α) : Nat :=
  inserted c x past - removed c x past

/-- The element that came when there was last none that compares equal to `x`. -/
def keeper? (c : Comparator α) (x : α) : History α → Option α
  | [] => none
  | .inserted y _ :: past =>
    if (c.compare y x).isEq ∧ balance c x past = 0 then some y else keeper? c x past
  | .removed _ _ :: past | .emptied _ :: past | .cleared :: past => keeper? c x past

/-- The entry of `x`, if there is any occurrence. -/
def entry? (c : Comparator α) (x : α) (past : History α) : Option (Entry α) :=
  if balance c x past = 0 then none
  else (keeper? c x past).map fun y => ⟨y, balance c x past⟩

/-- How many occurrences of `x` there are, if any. -/
def previous? (c : Comparator α) (x : α) (past : History α) : Option Nat :=
  if balance c x past = 0 then none else some (balance c x past)

/-- The history of a bag that holds some entries, of which no more is known. -/
def opening (es : List (Entry α)) : History α :=
  es.map fun e => .inserted e.element e.count

/-- Elements that came one by one. -/
def arrivals (xs : List α) : History α :=
  (xs.map fun x => .inserted x 1).reverse

theorem arrivals_cons (x : α) (xs : List α) :
    arrivals (x :: xs) = arrivals xs ++ [.inserted x 1] :=
  List.reverse_cons

/-! ## Elements that compare equal -/

section

variable {x y : α} (h : c.compare x y = .eq) (past : History α)

include h

theorem inserted_congr : inserted c x past = inserted c y past := by
  have hsame (z : α) : c.compare z x = c.compare z y := TransCmp.congr_right h
  induction past with
  | nil => rfl
  | cons e past ih => cases e <;> simp [inserted, hsame, ih]

theorem removed_congr : removed c x past = removed c y past := by
  have hsame (z : α) : c.compare z x = c.compare z y := TransCmp.congr_right h
  induction past with
  | nil => rfl
  | cons e past ih => cases e <;> simp [removed, hsame, ih, inserted_congr h past]

theorem balance_congr : balance c x past = balance c y past := by
  rw [balance, balance, inserted_congr h, removed_congr h]

theorem keeper?_congr : keeper? c x past = keeper? c y past := by
  have hsame (z : α) : c.compare z x = c.compare z y := TransCmp.congr_right h
  induction past with
  | nil => rfl
  | cons e past ih => cases e <;> simp [keeper?, hsame, ih, balance_congr h past]

end

end History

/-! ## Counting in a list of entries -/

namespace Comparator

/-- What comes before the first of sorted entries does not compare equal to any of them. -/
theorem compare_ne_eq_of_lt_head {d : Entry α} {es : List (Entry α)}
    (hs : (d :: es).Pairwise c.Precedes) {x : α} (hlt : c.compare x d.element = .lt) :
    ∀ e ∈ d :: es, c.compare e.element x ≠ .eq := by
  intro e he hex
  have hxe : c.compare x e.element = .lt := by
    rcases List.mem_cons.mp he with rfl | he
    · exact hlt
    · exact TransCmp.lt_trans hlt ((List.pairwise_cons.mp hs).1 e he)
  simp [eq_symm hex] at hxe

/-- How often an element occurs in a list of entries. -/
def tally (c : Comparator α) (es : List (Entry α)) (x : α) : Nat :=
  totalCount (es.filter fun e => (c.compare e.element x).isEq)

theorem tally_cons (c : Comparator α) (e : Entry α) (es : List (Entry α)) (x : α) :
    c.tally (e :: es) x =
      (if (c.compare e.element x).isEq then e.count else 0) + c.tally es x := by
  unfold tally
  rw [List.filter_cons]
  split
  · rw [totalCount_cons]
  · rw [Nat.zero_add]

theorem tally_eq_zero {es : List (Entry α)} {x : α} (h : ∀ e ∈ es, c.compare e.element x ≠ .eq) :
    c.tally es x = 0 := by
  unfold tally
  rw [List.filter_eq_nil_iff.mpr fun e he => by simpa using h e he]
  rfl

/-- At most one entry counts. -/
theorem tally_eq (es : List (Entry α)) (h : es.Pairwise c.Precedes) (x : α) :
    c.tally es x = ((c.find? es x).map Entry.count).getD 0 := by
  induction es with
  | nil => rfl
  | cons e es ih =>
    obtain ⟨he, hes⟩ := List.pairwise_cons.mp (c.pairwise_isEq h x)
    rw [tally_cons, find?]
    cases hx : (c.compare e.element x).isEq with
    | true =>
      rw [List.find?_cons_of_pos (by exact hx), tally_eq_zero fun f hf => ?_]
      · rfl
      · simpa using he f hf hx
    | false =>
      rw [List.find?_cons_of_neg (by simp [hx]), ih h.of_cons]
      exact Nat.zero_add _

/-- What is added counts for the elements that compare equal to it. -/
theorem tally_addTo (x : α) (n : Nat) (es : List (Entry α)) (y : α) :
    c.tally (Histogram.addTo c x n es) y =
      (if (c.compare x y).isEq then n else 0) + c.tally es y := by
  induction es with
  | nil => exact tally_cons c ⟨x, n⟩ [] y
  | cons e es ih =>
    unfold Histogram.addTo
    split
    next => exact tally_cons c ⟨x, n⟩ (e :: es) y
    next hxe =>
      rw [tally_cons, tally_cons, TransCmp.congr_left hxe]
      dsimp only
      split <;> omega
    next =>
      rw [tally_cons, tally_cons, ih]
      omega

/-- One occurrence less counts for the elements that compare equal to it. -/
theorem tally_removeFrom {x : α} {es : List (Entry α)} (hes : ∀ e ∈ es, e.Valid)
    (hx : c.find? es x ≠ none) (y : α) :
    (if (c.compare x y).isEq then 1 else 0) + c.tally (Histogram.removeFrom c x es) y =
      c.tally es y := by
  induction es with
  | nil => exact absurd rfl hx
  | cons e es ih =>
    obtain ⟨⟨hpos, -⟩, hes⟩ := List.forall_mem_cons.mp hes
    by_cases hex : (c.compare e.element x).isEq = true
    · have hsame : c.compare e.element y = c.compare x y :=
        TransCmp.congr_left (Ordering.isEq_iff_eq_eq.mp hex)
      by_cases hone : e.count ≤ 1
      · rw [Histogram.removeFrom, if_pos hex, if_pos hone, tally_cons, hsame]
        split <;> omega
      · rw [Histogram.removeFrom, if_pos hex, if_neg hone, tally_cons, tally_cons, hsame]
        dsimp only
        split <;> omega
    · have hfind : c.find? es x ≠ none := by
        rwa [find?, List.find?_cons_of_neg (by exact hex)] at hx
      rw [Histogram.removeFrom, if_neg hex, tally_cons, tally_cons, ← ih hes hfind]
      omega

/-- What is left out does not count. -/
theorem tally_filter_ne (x : α) (es : List (Entry α)) (y : α) :
    c.tally (es.filter fun e => !(c.compare e.element x).isEq) y =
      if (c.compare x y).isEq then 0 else c.tally es y := by
  split
  next hxy =>
    rw [Ordering.isEq_iff_eq_eq] at hxy
    refine tally_eq_zero fun e he hey => ?_
    have hex := TransCmp.eq_trans hey (eq_symm hxy)
    simp [hex] at he
  next hxy =>
    unfold tally
    rw [List.filter_filter]
    refine congrArg totalCount (List.filter_congr fun e _ => ?_)
    cases hex : c.compare e.element x with
    | eq =>
      rw [TransCmp.congr_left hex]
      simpa using hxy
    | _ => simp

end Comparator

/-! ## Contents of which no history is known -/

namespace History

theorem inserted_opening (x : α) (es : List (Entry α)) :
    inserted c x (opening es) = c.tally es x := by
  induction es with
  | nil => rfl
  | cons e es ih =>
    rw [Comparator.tally_cons, ← ih]
    rfl

theorem removed_opening (x : α) (es : List (Entry α)) : removed c x (opening es) = 0 := by
  induction es with
  | nil => rfl
  | cons e es ih => exact ih

theorem keeper?_opening {es : List (Entry α)} (hs : es.Pairwise c.Precedes) {e : Entry α}
    (he : e ∈ es) : keeper? c e.element (opening es) = some e.element := by
  induction es with
  | nil => exact absurd he List.not_mem_nil
  | cons d es ih =>
    obtain ⟨hd, hes⟩ := List.pairwise_cons.mp hs
    show (if (c.compare d.element e.element).isEq ∧ balance c e.element (opening es) = 0 then
      some d.element else keeper? c e.element (opening es)) = some e.element
    rcases List.mem_cons.mp he with rfl | he
    · have hnone : c.tally es e.element = 0 := by
        refine Comparator.tally_eq_zero fun f hf hfe => ?_
        have hlt : c.compare e.element f.element = .lt := hd f hf
        simp [Comparator.eq_symm hfe] at hlt
      have hzero : balance c e.element (opening es) = 0 := by
        rw [balance, inserted_opening, hnone, Nat.zero_sub]
      exact if_pos ⟨by rw [Comparator.compare_self]; rfl, hzero⟩
    · have hne : ¬ (c.compare d.element e.element).isEq = true := by simp [hd e he]
      rw [if_neg fun hcond => hne hcond.1]
      exact ih hes he

end History

namespace Histogram

theorem multiplicity_eq {h : Histogram α} (hs : h.entries.Pairwise c.Precedes) (x : α) :
    h.multiplicity c x = c.tally h.entries x :=
  (Comparator.tally_eq h.entries hs x).symm

theorem Valid.multiplicity_of_mem {h : Histogram α} (hv : h.Valid c) {e : Entry α}
    (he : e ∈ h.entries) {x : α} (hx : c.compare e.element x = .eq) :
    h.multiplicity c x = e.count := by
  unfold multiplicity find?
  rw [Comparator.find?_eq_some hv.sorted he hx]
  rfl

theorem entries_of_insert? {h h' : Histogram α} {x : α} {n : Nat} (hi : h.insert? c x n = some h') :
    h'.entries = addTo c x n h.entries := by
  unfold insert? at hi
  split at hi
  · rw [← Option.some.inj hi]
  · cases hi

/-- After an insertion the elements are those from before, and the inserted one if there was none
that compares equal. -/
theorem new_of_mem_addTo {es : List (Entry α)} (hs : es.Pairwise c.Precedes) {x : α} {n : Nat}
    {e : Entry α} (he : e ∈ addTo c x n es) :
    (∃ f ∈ es, f.element = e.element) ∨
      e.element = x ∧ ∀ f ∈ es, c.compare f.element x ≠ .eq := by
  induction es with
  | nil =>
    obtain rfl := List.mem_singleton.mp he
    exact .inr ⟨rfl, fun f hf => absurd hf List.not_mem_nil⟩
  | cons d es ih =>
    unfold addTo at he
    split at he
    next hlt =>
      rcases List.mem_cons.mp he with rfl | he
      · exact .inr ⟨rfl, Comparator.compare_ne_eq_of_lt_head hs hlt⟩
      · exact .inl ⟨e, he, rfl⟩
    next =>
      rcases List.mem_cons.mp he with rfl | he
      · exact .inl ⟨d, List.mem_cons_self, rfl⟩
      · exact .inl ⟨e, List.mem_cons_of_mem _ he, rfl⟩
    next hgt =>
      rcases List.mem_cons.mp he with rfl | he
      · exact .inl ⟨e, List.mem_cons_self, rfl⟩
      · rcases ih hs.of_cons he with ⟨f, hf, hfe⟩ | ⟨hx, hnone⟩
        · exact .inl ⟨f, List.mem_cons_of_mem _ hf, hfe⟩
        · refine .inr ⟨hx, List.forall_mem_cons.mpr ⟨fun hdx => ?_, hnone⟩⟩
          simp [Comparator.eq_symm hdx] at hgt

/-! ## Contents and their history -/

/-- The contents are in order, no total has to wrap around, and they are what can be told from the
history. -/
structure Accounts (c : Comparator α) (past : History α) (h : Histogram α) : Prop where
  valid : h.Valid c
  inRange : totalCount h.entries ≤ maxCount
  balance : ∀ x, h.multiplicity c x + History.removed c x past = History.inserted c x past
  keeper : ∀ e ∈ h.entries, History.keeper? c e.element past = some e.element

namespace Accounts

variable {past : History α} {h : Histogram α}

theorem multiplicity_eq (ha : h.Accounts c past) (x : α) :
    h.multiplicity c x = History.balance c x past := by
  have hb := ha.balance x
  unfold History.balance
  omega

/-- The entry of an element can be told from the history. -/
theorem find?_eq (ha : h.Accounts c past) (x : α) : h.find? c x = History.entry? c x past := by
  have hm := ha.multiplicity_eq x
  unfold History.entry?
  cases hf : h.find? c x with
  | none =>
    unfold multiplicity at hm
    rw [hf] at hm
    exact (if_pos hm.symm).symm
  | some e =>
    obtain ⟨he, hex⟩ := Comparator.mem_of_find? hf
    rw [ha.valid.multiplicity_of_mem he hex] at hm
    have hpos := (ha.valid.counts e he).1
    rw [if_neg (by omega), ← History.keeper?_congr hex, ha.keeper e he, ← hm]
    rfl

/-- The entry of an element is there unless all occurrences went. -/
theorem entry?_eq_none_iff (ha : h.Accounts c past) (x : α) :
    History.entry? c x past = none ↔ History.balance c x past = 0 := by
  rw [← ha.find?_eq, ← ha.multiplicity_eq, multiplicity]
  cases hf : h.find? c x with
  | none => simp
  | some e =>
    -- an entry is there, and none has the count zero
    have hpos := (ha.valid.counts e (Comparator.mem_of_find? hf).1).1
    simp only [reduceCtorEq, Option.map_some, Option.getD_some, false_iff]
    omega

/-- So is its count. -/
theorem previous?_eq (ha : h.Accounts c past) (x : α) :
    (h.find? c x).map Entry.count = History.previous? c x past := by
  have hm := ha.multiplicity_eq x
  have hnone := ha.entry?_eq_none_iff x
  rw [← ha.find?_eq] at hnone
  unfold History.previous? multiplicity at *
  cases hf : h.find? c x with
  | none => rw [if_pos (hnone.mp hf)]; rfl
  | some e =>
    rw [hf] at hm hnone
    rw [if_neg fun hzero => by simp [hzero] at hnone, ← hm]
    rfl

/-- The running total is the sum of the counts. -/
theorem total_eq (ha : h.Accounts c past) : h.total = totalCount h.entries :=
  ha.valid.total_eq.trans (wrap_of_le ha.inRange)

/-- No entry counts more than there is in all. -/
theorem count_le_total (ha : h.Accounts c past) : ∀ e ∈ h.entries, e.count ≤ h.total := by
  intro e he
  rw [ha.total_eq]
  exact totalCount_le_of_sublist (List.singleton_sublist.mpr he)

theorem multiplicity_le_total (ha : h.Accounts c past) (x : α) :
    h.multiplicity c x ≤ h.total := by
  unfold multiplicity
  cases hf : h.find? c x with
  | none => exact Nat.zero_le _
  | some e => exact ha.count_le_total e (Comparator.mem_of_find? hf).1

/-- Contents that came as they are. -/
theorem opening (hv : h.Valid c) (hle : totalCount h.entries ≤ maxCount) :
    h.Accounts c (History.opening h.entries) where
  valid := hv
  inRange := hle
  balance := fun x => by
    rw [Histogram.multiplicity_eq hv.sorted, History.removed_opening, History.inserted_opening]
    rfl
  keeper := fun e he => History.keeper?_opening hv.sorted he

/-- An insertion for which there is room can be written down. -/
theorem insert (ha : h.Accounts c past) {x : α} {n : Nat} (hn : 1 ≤ n)
    (hroom : h.total + n ≤ maxCount) {h' : Histogram α} (hi : h.insert? c x n = some h') :
    h'.Accounts c (.inserted x n :: past) := by
  have hv := ha.valid.insert? hn hi
  have hentries := entries_of_insert? hi
  refine ⟨hv, ?_, fun y => ?_, fun e he => ?_⟩
  · rw [hentries, totalCount_addTo, ← ha.total_eq]
    exact hroom
  · have hb := ha.balance y
    rw [Histogram.multiplicity_eq ha.valid.sorted] at hb
    rw [Histogram.multiplicity_eq hv.sorted, hentries, Comparator.tally_addTo, History.removed,
      History.inserted]
    omega
  · rw [hentries] at he
    rw [History.keeper?]
    rcases new_of_mem_addTo ha.valid.sorted he with ⟨f, hf, hfe⟩ | ⟨rfl, hnone⟩
    · -- the element was there, and its entry keeps it
      have hm := ha.valid.multiplicity_of_mem hf (Comparator.compare_self c f.element)
      have hpos := (ha.valid.counts f hf).1
      rw [ha.multiplicity_eq] at hm
      rw [← hfe, if_neg fun hcond => by omega]
      exact ha.keeper f hf
    · have hzero := Comparator.tally_eq_zero hnone
      rw [← Histogram.multiplicity_eq ha.valid.sorted, ha.multiplicity_eq] at hzero
      exact if_pos ⟨by rw [Comparator.compare_self]; rfl, hzero⟩

/-- The removal of one occurrence can be written down. -/
theorem removeOne (ha : h.Accounts c past) {x : α} (hx : h.find? c x ≠ none) :
    (h.removeOne c x).Accounts c (.removed x 1 :: past) := by
  have hv := ha.valid.removeOne x
  have hentries : (h.removeOne c x).entries = removeFrom c x h.entries := by
    unfold Histogram.removeOne
    cases hf : h.find? c x with
    | none => exact absurd hf hx
    | some e => rfl
  refine ⟨hv, ?_, fun y => ?_, fun e he => ?_⟩
  · obtain ⟨e, he⟩ := Option.ne_none_iff_exists'.mp hx
    have hcount := totalCount_removeFrom ha.valid.counts he
    have hle := ha.inRange
    rw [hentries]
    omega
  · have hb := ha.balance y
    have ht := Comparator.tally_removeFrom ha.valid.counts hx y
    rw [Histogram.multiplicity_eq ha.valid.sorted] at hb
    rw [Histogram.multiplicity_eq hv.sorted, hentries, History.removed, History.inserted]
    omega
  · rw [hentries] at he
    obtain ⟨f, hf, hfe⟩ := (pairwise_removeFrom ha.valid.sorted x).2 e he
    rw [← hfe]
    exact ha.keeper f hf

theorem multiplicity_erase (ha : h.Accounts c past) (x y : α) :
    (h.erase c x).multiplicity c y =
      if (c.compare x y).isEq then 0 else h.multiplicity c y := by
  rw [Histogram.multiplicity_eq (ha.valid.erase x).sorted, ha.valid.entries_erase,
    Comparator.tally_filter_ne, Histogram.multiplicity_eq ha.valid.sorted]

theorem inRange_erase (ha : h.Accounts c past) (x : α) :
    totalCount (h.erase c x).entries ≤ maxCount := by
  rw [ha.valid.entries_erase]
  exact Nat.le_trans (totalCount_le_of_sublist List.filter_sublist) ha.inRange

theorem keeper_erase (ha : h.Accounts c past) (x : α) :
    ∀ e ∈ (h.erase c x).entries, History.keeper? c e.element past = some e.element := by
  intro e he
  rw [ha.valid.entries_erase] at he
  exact ha.keeper e (List.mem_filter.mp he).1

/-- The removal of an entry can be written down with its count. -/
theorem eraseEntry (ha : h.Accounts c past) {e : Entry α} (he : e ∈ h.entries) {x : α}
    (hx : c.compare e.element x = .eq) :
    (h.erase c x).Accounts c (.removed x e.count :: past) := by
  refine ⟨ha.valid.erase _, ha.inRange_erase _, fun y => ?_, ha.keeper_erase _⟩
  have hb := ha.balance y
  rw [ha.multiplicity_erase, History.removed, History.inserted]
  split
  next hxy =>
    have hey := TransCmp.eq_trans hx (Ordering.isEq_iff_eq_eq.mp hxy)
    rw [ha.valid.multiplicity_of_mem he hey] at hb
    omega
  next => omega

/-- Or without it. -/
theorem erase (ha : h.Accounts c past) (x : α) :
    (h.erase c x).Accounts c (.emptied x :: past) := by
  refine ⟨ha.valid.erase _, ha.inRange_erase _, fun y => ?_, ha.keeper_erase _⟩
  have hb := ha.balance y
  rw [ha.multiplicity_erase, History.removed, History.inserted]
  split <;> omega

/-- The removal of one occurrence can be written down if there was one. -/
theorem removeOne_previous (ha : h.Accounts c past) (x : α) :
    (h.removeOne c x).Accounts c
      (((History.previous? c x past).map fun _ => Event.removed x 1).toList ++ past) := by
  rw [← ha.previous?_eq]
  cases hf : h.find? c x with
  | none =>
    rw [Histogram.removeOne, hf]
    exact ha
  | some e => exact ha.removeOne (by simp [hf])

/-- The removal of all occurrences can be written down if there was one. -/
theorem erase_previous (ha : h.Accounts c past) (x : α) :
    (h.erase c x).Accounts c
      (((History.previous? c x past).map (Event.removed x)).toList ++ past) := by
  rw [← ha.previous?_eq]
  cases hf : h.find? c x with
  | none =>
    rw [erase_of_find?_eq_none hf]
    exact ha
  | some e =>
    obtain ⟨he, hex⟩ := Comparator.mem_of_find? hf
    exact ha.eraseEntry he hex

/-- A removal of everything can be written down. -/
theorem empty (c : Comparator α) (past : History α) :
    (Histogram.empty : Histogram α).Accounts c (.cleared :: past) where
  valid := valid_empty c
  inRange := Nat.zero_le _
  balance := fun _ => Nat.zero_add _
  keeper := fun _ he => absurd he List.not_mem_nil

end Accounts

end Histogram

end OrderedBag
