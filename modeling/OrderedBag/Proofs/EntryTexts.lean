import OrderedBag.Proofs.EntrySets
import OrderedBag.Proofs.Mirror
import OrderedBag.Proofs.Tally
import Mathlib.Data.Fintype.EquivFin

/-!
# The text of an entry set

The text of entries whose elements are whole numbers can be read in one way only. A number ends
where the first character follows that is neither a digit nor a minus sign. After an element there
is a blank exactly if a count follows, and after an entry there is a comma exactly if another entry
follows. So two lists of entries with the same text are the same list, and two bags in any two
sessions show the same entries if their entry sets have the same text.

* `eq_of_append_eq` — where a run of characters ends, given what the characters of the run have in
  common
* `Entry.eq_of_display_append` — the first entry of a text, and what follows it
* `displayEntries_injective` — the whole text
* `Session.Prints` — the text of the entry sets of a bag
* `Session.text_tells_entries` — bags whose entry sets have the same text
-/

namespace OrderedBag

open OrderedBag.Action

variable {α : Type}

/-! ## Runs of characters -/

/-- A run of characters that satisfy a condition ends before the first one that does not. -/
theorem eq_of_append_eq {p : Char → Bool} {a b rest rest' : List Char}
    (ha : ∀ c ∈ a, p c = true) (hb : ∀ c ∈ b, p c = true)
    (hrest : ∀ c ∈ rest.head?, p c = false) (hrest' : ∀ c ∈ rest'.head?, p c = false)
    (h : a ++ rest = b ++ rest') : a = b ∧ rest = rest' := by
  have htake {l r : List Char} (hl : ∀ c ∈ l, p c = true) (hr : ∀ c ∈ r.head?, p c = false) :
      (l ++ r).takeWhile p = l := by
    rw [List.takeWhile_append_of_pos hl]
    cases r with
    | nil => simp
    | cons c r => simp [hr c rfl]
  have hab : a = b := by rw [← htake ha hrest, h, htake hb hrest']
  subst hab
  exact ⟨rfl, List.append_cancel_left h⟩

/-! ## Numbers -/

/-- Whether a character occurs in the text of a whole number. -/
def isNumeral (c : Char) : Bool :=
  c.isDigit || c == '-'

theorem isNumeral_of_mem_toString {n : Nat} {c : Char} (hc : c ∈ (toString n).toList) :
    isNumeral c = true := by
  rw [Nat.toString_eq_repr, Nat.toList_repr] at hc
  rw [isNumeral, Nat.isDigit_of_mem_toDigits (by decide) (by decide) hc, Bool.true_or]

theorem isNumeral_of_mem_display {n : Int} {c : Char} (hc : c ∈ (Shown.display n).toList) :
    isNumeral c = true := by
  cases n with
  | ofNat n => exact isNumeral_of_mem_toString hc
  | negSucc n =>
    have hsplit : (Shown.display (Int.negSucc n)).toList = '-' :: (toString (n + 1)).toList :=
      String.toList_append
    rw [hsplit, List.mem_cons] at hc
    rcases hc with rfl | hc
    · rfl
    · exact isNumeral_of_mem_toString hc

theorem display_injective {m n : Int} (h : Shown.display m = Shown.display n) : m = n :=
  Int.repr_injective h

theorem display_ne_empty (n : Int) : Shown.display n ≠ "" := by
  intro h
  have hlist : (Shown.display n).toList = [] := by rw [h]; rfl
  cases n with
  | ofNat n => exact Nat.toDigits_ne_nil (Nat.toList_repr.symm.trans hlist)
  | negSucc n => exact List.cons_ne_nil _ _ (String.toList_append.symm.trans hlist)

/-! ## Entries -/

/-- Where an entry ends, a comma or the closing bracket follows. -/
def EndsEntry (rest : List Char) : Prop :=
  rest.head? = some ',' ∨ rest.head? = some ']'

theorem EndsEntry.isNumeral_eq_false {rest : List Char} (h : EndsEntry rest) :
    ∀ c ∈ rest.head?, isNumeral c = false := by
  intro c hc
  rcases h with h | h <;> obtain rfl := Option.some.inj (h.symm.trans hc) <;> rfl

namespace Entry

/-- What is displayed of an entry after its element: the count, unless that is 1. -/
def displayCount (e : Entry α) : String :=
  if e.count = 1 then "" else " x " ++ toString e.count

theorem display_eq [Shown α] (e : Entry α) :
    e.display = Shown.display e.element ++ e.displayCount := by
  unfold display displayCount
  split
  · rw [String.append_empty]
  · rw [String.append_assoc]

theorem displayCount_of_one {e : Entry α} (h : e.count = 1) : e.displayCount.toList = [] := by
  rw [displayCount, if_pos h]
  rfl

theorem displayCount_of_ne_one {e : Entry α} (h : e.count ≠ 1) :
    e.displayCount.toList = ' ' :: 'x' :: ' ' :: (toString e.count).toList := by
  rw [displayCount, if_neg h, String.toList_append]
  rfl

variable {rest rest' : List Char}

/-- An element ends before its count, or where the entry ends. -/
theorem isNumeral_eq_false_of_displayCount (e : Entry α) (hrest : EndsEntry rest) :
    ∀ c ∈ (e.displayCount.toList ++ rest).head?, isNumeral c = false := by
  by_cases h : e.count = 1
  · rw [displayCount_of_one h]
    exact hrest.isNumeral_eq_false
  · rw [displayCount_of_ne_one h]
    intro c hc
    obtain rfl := Option.some.inj hc
    rfl

/-- Where a count is displayed, no entry ends. -/
theorem displayCount_append_ne {e : Entry α} (h : e.count ≠ 1) (hrest : EndsEntry rest) :
    e.displayCount.toList ++ rest' ≠ rest := by
  rintro rfl
  rw [displayCount_of_ne_one h] at hrest
  rcases hrest with hrest | hrest <;> simp at hrest

/-- A count is read off the text after the element, also if it is not written. -/
theorem count_eq_of_displayCount_append {d e : Entry α} (hrest : EndsEntry rest)
    (hrest' : EndsEntry rest')
    (h : d.displayCount.toList ++ rest = e.displayCount.toList ++ rest') :
    d.count = e.count ∧ rest = rest' := by
  by_cases hd : d.count = 1
  · rw [displayCount_of_one hd, List.nil_append] at h
    by_cases he : e.count = 1
    · rw [displayCount_of_one he, List.nil_append] at h
      exact ⟨hd.trans he.symm, h⟩
    · exact absurd h.symm (displayCount_append_ne he hrest)
  · by_cases he : e.count = 1
    · rw [displayCount_of_one he, List.nil_append] at h
      exact absurd h (displayCount_append_ne hd hrest')
    · rw [displayCount_of_ne_one hd, displayCount_of_ne_one he] at h
      simp only [List.cons_append, List.cons.injEq, true_and] at h
      obtain ⟨hcount, hsame⟩ := eq_of_append_eq (fun _ => isNumeral_of_mem_toString)
        (fun _ => isNumeral_of_mem_toString) hrest.isNumeral_eq_false hrest'.isNumeral_eq_false h
      exact ⟨Nat.repr_injective (String.toList_inj.mp hcount), hsame⟩

/-- An entry is read off the text up to its end. -/
theorem eq_of_display_append {d e : Entry Int} (hrest : EndsEntry rest) (hrest' : EndsEntry rest')
    (h : d.display.toList ++ rest = e.display.toList ++ rest') : d = e ∧ rest = rest' := by
  rw [display_eq, display_eq, String.toList_append, String.toList_append, List.append_assoc,
    List.append_assoc] at h
  obtain ⟨helement, hcount⟩ := eq_of_append_eq (fun _ => isNumeral_of_mem_display)
    (fun _ => isNumeral_of_mem_display) (d.isNumeral_eq_false_of_displayCount hrest)
    (e.isNumeral_eq_false_of_displayCount hrest') h
  obtain ⟨hcount, hsame⟩ := count_eq_of_displayCount_append hrest hrest' hcount
  have helement := display_injective (String.toList_inj.mp helement)
  refine ⟨?_, hsame⟩
  cases d
  cases e
  simp_all

end Entry

/-! ## Lists of entries -/

/-- What follows an entry in the text of a list: each further entry after a comma and a blank, and
the closing bracket. -/
def displayRest [Shown α] : List (Entry α) → List Char
  | [] => [']']
  | e :: es => ',' :: ' ' :: (e.display.toList ++ displayRest es)

theorem endsEntry_displayRest [Shown α] (es : List (Entry α)) : EndsEntry (displayRest es) := by
  cases es with
  | nil => exact .inr rfl
  | cons e es => exact .inl rfl

theorem toList_displayEntries_cons [Shown α] (e : Entry α) (es : List (Entry α)) :
    (displayEntries (e :: es)).toList = '[' :: (e.display.toList ++ displayRest es) := by
  have hrest : (", ".intercalate ((e :: es).map Entry.display)).toList ++ [']'] =
      e.display.toList ++ displayRest es := by
    induction es generalizing e with
    | nil => simp [displayRest]
    | cons f es ih =>
      rw [List.map_cons, List.map_cons, String.intercalate_cons_cons, String.toList_append,
        String.toList_append, List.append_assoc, List.append_assoc, ← List.map_cons, ih]
      rfl
  rw [displayEntries, String.toList_append, String.toList_append, List.append_assoc]
  exact congrArg (List.cons '[') hrest

theorem displayRest_injective {es fs : List (Entry Int)} (h : displayRest es = displayRest fs) :
    es = fs := by
  induction es generalizing fs with
  | nil =>
    cases fs with
    | nil => rfl
    | cons f fs => simp [displayRest] at h
  | cons e es ih =>
    cases fs with
    | nil => simp [displayRest] at h
    | cons f fs =>
      simp only [displayRest, List.cons.injEq, true_and] at h
      obtain ⟨rfl, hrest⟩ :=
        Entry.eq_of_display_append (endsEntry_displayRest es) (endsEntry_displayRest fs) h
      rw [ih hrest]

/-- Only the empty list is displayed as a bracket that is closed at once. -/
theorem displayEntries_cons_ne_nil (e : Entry Int) (es : List (Entry Int)) :
    displayEntries (e :: es) ≠ displayEntries ([] : List (Entry Int)) := by
  intro h
  have hlist := congrArg String.toList h
  rw [toList_displayEntries_cons, e.display_eq, String.toList_append, List.append_assoc] at hlist
  have hclosed : (Shown.display e.element).toList ++ (e.displayCount.toList ++ displayRest es) =
      [']'] := List.tail_eq_of_cons_eq hlist
  cases hd : (Shown.display e.element).toList with
  | nil => exact display_ne_empty e.element (String.toList_inj.mp hd)
  | cons c cs =>
    -- the element begins with a digit or a minus sign
    have hc : isNumeral c = true := isNumeral_of_mem_display (hd ▸ List.mem_cons_self)
    rw [hd, List.cons_append] at hclosed
    obtain rfl : c = ']' := List.head_eq_of_cons_eq hclosed
    cases hc

/-- The text of a list of entries tells which entries it has, how often each occurs, and in which
order they come. -/
theorem displayEntries_injective {es fs : List (Entry Int)}
    (h : displayEntries es = displayEntries fs) : es = fs := by
  cases es with
  | nil =>
    cases fs with
    | nil => rfl
    | cons f fs => exact absurd h.symm (displayEntries_cons_ne_nil f fs)
  | cons e es =>
    cases fs with
    | nil => exact absurd h (displayEntries_cons_ne_nil e es)
    | cons f fs =>
      -- behind the opening bracket the lists read as they would behind a further entry
      have hlist := congrArg String.toList h
      rw [toList_displayEntries_cons, toList_displayEntries_cons] at hlist
      apply displayRest_injective
      rw [displayRest, displayRest, List.tail_eq_of_cons_eq hlist]

/-! ## The text of the entry sets of a bag -/

/-- There is always a name that stands for nothing. -/
theorem Table.exists_unused (t : Table α) : ∃ name, t.find? name = none := by
  obtain ⟨name, hname⟩ := Infinite.exists_notMem_finset (t.map Prod.fst).toFinset
  refine ⟨name, List.lookup_eq_none_iff.mpr fun entry hentry => ?_⟩
  rw [bne_iff_ne]
  rintro rfl
  exact hname (List.mem_toFinset.mpr (List.mem_map_of_mem hentry))

namespace Session

section

variable [Ord α] [Std.TransOrd α] [Shown α] {s : Session α} {name : String} {v : View α}

/-- The entry sets of the bag have this text for readers: those that are at hand, and one that is
made now. -/
structure Prints (s : Session α) (name : String) (v : View α) (text : String) : Prop where
  held : ∀ set, s.table.find? set = some (.entries ⟨v⟩) →
    s.Reads (.askEntries set .display) (.text text)
  made : ∀ new watched, s.table.find? new = none →
    (s.step watched (.bind new (.entrySet name))).1.outcome = .ok .done ∧
    (s.step watched (.bind new (.entrySet name))).2.Reads (.askEntries new .display) (.text text)

/-- The text of the entry sets of a bag is that of its entries. -/
theorem Reachable.prints (hs : s.Reachable) (hname : s.table.find? name = some (.bag v))
    (hreach : s.registry.canReach v = true) (hatt : v.root.access ≠ .detached) :
    s.Prints name v (displayEntries (v.listing s.registry.contents)) where
  held set hset := hs.sound.reads_entries hset hreach hatt .display
  made new watched hnew := by
    obtain ⟨hdone, htable, hcontents⟩ := hs.sound.entrySet hname watched new
    have hspares := hs.spares (c := .bind new (.entrySet name)) trivial watched fun i hi => by
      rw [htable]
      exact Table.mem_held_bind hnew _ hi
    have hafter := hs.next (c := .bind new (.entrySet name)) trivial watched
    have hreach' := Registry.canReach_of_spares hreach hspares
    refine ⟨hdone, ?_⟩
    rw [← hcontents]
    refine hafter.sound.reads_entries ?_ hreach' hatt .display
    rw [htable]
    exact Table.find?_bind_self s.table new _

theorem Prints.unique {text text' : String} (h : s.Prints name v text)
    (h' : s.Prints name v text') : text = text' := by
  obtain ⟨new, hnew⟩ := s.table.exists_unused
  exact Answer.text.inj ((h.made new [] hnew).2.unique (h'.made new [] hnew).2)

end

/-! ## Bags whose entry sets have the same text -/

variable {s t : Session Int} {name other : String} {v w : View Int}

/-- Two bags of whole numbers that can be reached, each in a session of its own, have entry sets
with a text, and they show the same entries in the same order with the same counts if that text is
the same for both. For no two lists of entries have the same text, whatever the elements and the
counts are. -/
theorem text_tells_entries (hs : s.Reachable) (hname : s.table.find? name = some (.bag v))
    (hreach : s.registry.canReach v = true) (hatt : v.root.access ≠ .detached)
    (ht : t.Reachable) (hother : t.table.find? other = some (.bag w))
    (hreach' : t.registry.canReach w = true) (hatt' : w.root.access ≠ .detached) :
    (∃ es fs : List (Entry Int),
      s.Reads (.askBag name (.entries .ascending)) (.entries es) ∧
      s.Prints name v (displayEntries es) ∧
      t.Reads (.askBag other (.entries .ascending)) (.entries fs) ∧
      t.Prints other w (displayEntries fs) ∧
      ∀ text, s.Prints name v text → t.Prints other w text → es = fs) ∧
    ∀ es fs : List (Entry Int), displayEntries es = displayEntries fs → es = fs := by
  have hprints := hs.prints hname hreach hatt
  have hprints' := ht.prints hother hreach' hatt'
  refine ⟨⟨v.listing s.registry.contents, w.listing t.registry.contents,
    hs.sound.reads_bag hname hreach (.inl rfl) rfl rfl, hprints,
    ht.sound.reads_bag hother hreach' (.inl rfl) rfl rfl, hprints', ?_⟩,
    fun _ _ => displayEntries_injective⟩
  intro text htext htext'
  exact displayEntries_injective ((hprints.unique htext).trans (htext'.unique hprints'))

/-- Three occurs three times, in a source that is read backwards and in one that is sorted the other
way around. The entry sets have the same text, so the bags show the same entries. -/
theorem text_tells_entries_threeMore :
    let t := ((threeBackwards.step [] (.change "d" (.insert 3))).2.step []
      (.change "d" (.insert 3))).2
    let text := "[5, 3 x 3, 1]"
    (threeMore.step [] (.bind "e" (.entrySet "d"))).2.Reads (.askEntries "e" .display)
        (.text text) ∧
      (t.step [] (.bind "e" (.entrySet "d"))).2.Reads (.askEntries "e" .display) (.text text) ∧
      ∃ es : List (Entry Int),
        threeMore.Reads (.askBag "d" (.entries .ascending)) (.entries es) ∧
        t.Reads (.askBag "d" (.entries .ascending)) (.entries es) := by
  intro t text
  let b : Source Int := ⟨0, 0, ⟨0, .natural, false⟩, .indexed⟩
  have hs : threeMore.Reachable :=
    threeReversed_reachable.next (c := .change "s" (.insertMany 3 2)) ⟨by decide, by decide⟩ []
  have hd : threeMore.table.find? "d" = some (.bag (.descending (some 1) .weak (.source b))) := rfl
  have ht : t.Reachable :=
    (threeBackwards_reachable.next (c := .change "d" (.insert 3)) trivial []).next
      (c := .change "d" (.insert 3)) trivial []
  have hd' : t.table.find? "d" = some (.bag (.source ⟨0, 0, ⟨0, .natural, true⟩, .copying⟩)) := rfl
  obtain ⟨⟨es, fs, hes, hprints, hfs, hprints', htells⟩, -⟩ :=
    text_tells_entries hs hd rfl (by decide) ht hd' rfl (by decide)
  have htext {r : Session Int} {gs : List (Entry Int)}
      (hlist : (r.step [] (.askBag "d" (.entries .ascending))).1.outcome =
        .ok (.entries [⟨5, 1⟩, ⟨3, 3⟩, ⟨1, 1⟩]))
      (hgs : r.Reads (.askBag "d" (.entries .ascending)) (.entries gs)) :
      displayEntries gs = text := by
    rw [← Answer.entries.inj (Except.ok.inj (hlist.symm.trans (hgs []).1))]
    rfl
  rw [htext rfl hes] at hprints
  rw [htext rfl hfs] at hprints'
  obtain rfl := htells text hprints hprints'
  exact ⟨(hprints.made "e" [] rfl).2, (hprints'.made "e" [] rfl).2, es, hes, hfs⟩

end Session

end OrderedBag
