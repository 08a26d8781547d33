import OrderedBag.Proofs.Partitions

/-!
# Entry sets

The entry set of a bag lists what the bag lists. An entry is in it if the bag has an entry with an
element that compares equal and with the same count, so nothing is in it whose element lies outside
of the bag. Reversing the bag changes the order of the list and none of the other answers.

* `View.count_eq_iff` — a count that is found is the count of a listed entry
* `Session.Collects` — what a set answers if it is a set of the given entries
* `Session.Sound.collects` — the entry set of a bag is a set of its entries
* `Session.entry_sets_agree` — the entry sets of a bag and of its descending view
-/

namespace OrderedBag

open OrderedBag.Action

variable {α : Type}

/-! ## Entries that a list has -/

/-- A positive count is found for an element exactly if a listed entry that compares equal has that
count. -/
theorem View.count_eq_iff {v : View α} {contents : BagId → Histogram α}
    (h : (contents v.root.bag).Valid v.root.comparator) (e : Entry α) (he : 1 ≤ e.count) :
    ((v.order.find? (v.listing contents) e.element).map Entry.count).getD 0 = e.count ↔
      ∃ f ∈ v.listing contents, v.order.compare f.element e.element = .eq ∧
        f.count = e.count := by
  have hfound (f : Entry α) := v.find?_listing_eq_some_iff h e.element f
  constructor
  · intro hcount
    cases hf : v.order.find? (v.listing contents) e.element with
    | none =>
      rw [hf] at hcount
      have hzero : 0 = e.count := hcount
      omega
    | some f =>
      rw [hf] at hcount
      obtain ⟨hmem, hcmp⟩ := (hfound f).mp hf
      exact ⟨f, hmem, hcmp, hcount⟩
  · rintro ⟨f, hmem, hcmp, hcount⟩
    rw [(hfound f).mpr ⟨hmem, hcmp⟩]
    exact hcount

/-- No listed entry compares equal to an element that the view does not let through. -/
theorem View.compare_ne_eq_of_admits {v : View α} {contents : BagId → Histogram α} {x : α}
    (hx : v.admits x = false) {f : Entry α} (hf : f ∈ v.listing contents) :
    v.order.compare f.element x ≠ .eq := by
  intro hcmp
  have hadmits := (View.mem_listing.mp hf).2
  rw [v.admits_congr hcmp, hx] at hadmits
  cases hadmits

namespace Session

variable [Ord α] [Std.TransOrd α] [Shown α] {s t : Session α} {set : String} {v w : View α}

/-! ## Sets of entries -/

/-- The name stands for a set of these entries: it lists them and tells how many they are, and
whether there are any unless that question is misled, and in it is what compares equal to one of
them and has its count. -/
structure Collects (s : Session α) (set : String) (c : Comparator α) (es : List (Entry α)) :
    Prop where
  entries : s.Reads (.askEntries set .entries) (.entries es)
  size : s.Reads (.askEntries set .size) (.number es.length)
  isEmpty : ¬ s.Misled (.askEntries set .isEmpty) →
    s.Reads (.askEntries set .isEmpty) (.flag es.isEmpty)
  misled : s.Misled (.askEntries set .isEmpty) →
    es ≠ [] ∧ s.Reads (.askEntries set .isEmpty) (.flag true)
  contains : ∀ e : Entry α, 1 ≤ e.count → ∃ b : Bool,
    s.Reads (.askEntries set (.contains e)) (.flag b) ∧
    (b = true ↔ ∃ f ∈ es, c.compare f.element e.element = .eq ∧ f.count = e.count)

/-- The order of the view and its entries decide what the set answers. -/
theorem Sound.reads_entries (hs : s.Sound) (hset : s.table.find? set = some (.entries ⟨v⟩))
    (hreach : s.registry.canReach v = true) (hatt : v.root.access ≠ .detached) (q : EntryQuery α) :
    s.Reads (.askEntries set q) (q.answer v.order (v.listing s.registry.contents)
      (v.vacant s.registry.contents)) := by
  have hl : s.fresh.Live v := hs.live_fresh.find? hset
  have hreach' : s.fresh.canReach v = true :=
    (Registry.canReach_withLog s.registry [] v).trans hreach
  have hv : (⟨v⟩ : EntrySet α).Intact s.fresh :=
    ⟨⟨hl.1, hreach', hatt⟩, View.follow_eq_ok hl hatt .weak⟩
  have hrun := (q.run_answers hs.fresh hv).gives
  exact step_of_answer (o := .ok _)
    (.after (Table.perform_entries hset s.fresh) (hrun.map fun a => (a, s.table)))

/-- The entry set of a bag is a set of the entries that the bag lists. -/
theorem Sound.collects (hs : s.Sound) (hset : s.table.find? set = some (.entries ⟨v⟩))
    (hreach : s.registry.canReach v = true) (hatt : v.root.access ≠ .detached) :
    s.Collects set v.order (v.listing s.registry.contents) where
  entries := hs.reads_entries hset hreach hatt .entries
  size := hs.reads_entries hset hreach hatt .size
  isEmpty hquiet := by
    have hread := hs.reads_entries hset hreach hatt .isEmpty
    have hvacant := (hs.tellsDue_vacant
      (Command.probed?_askEntries.mpr ⟨rfl, _, hset, rfl⟩)).quiet hquiet
    rwa [EntryQuery.answer, Answer.flag.inj (Except.ok.inj hvacant)] at hread
  misled hmisled := by
    have hread := hs.reads_entries hset hreach hatt .isEmpty
    obtain ⟨htold, hdue⟩ := (hs.tellsDue_vacant
      (Command.probed?_askEntries.mpr ⟨rfl, _, hset, rfl⟩)).misled hmisled
    rw [EntryQuery.answer, Answer.flag.inj (Except.ok.inj htold)] at hread
    refine ⟨fun hnil => ?_, hread⟩
    rw [hnil] at hdue
    cases hdue
  contains e he := by
    have hvalid := (hs.registry.usable (hs.live.find? hset).1 hreach).valid
    refine ⟨_, hs.reads_entries hset hreach hatt (.contains e), ?_⟩
    rw [beq_iff_eq]
    exact View.count_eq_iff hvalid e he

/-- A bag can always be asked for its entry set, and the bags stay as they are. -/
theorem Sound.entrySet {name : String} (hs : s.Sound)
    (hname : s.table.find? name = some (.bag v)) (watched : List String) (new : String) :
    (s.step watched (.bind new (.entrySet name))).1.outcome = .ok .done ∧
      (s.step watched (.bind new (.entrySet name))).2.table =
        s.table.bind new (.entries ⟨v⟩) ∧
      (s.step watched (.bind new (.entrySet name))).2.registry.contents =
        s.registry.contents := by
  have hset := View.entrySet_gives (hs.live_fresh.find? hname).1
  have hmake : ((Making.entrySet name).run s.table).Gives s.fresh
      (.ok (.entries ⟨v⟩)) s.registry.contents :=
    .after (Table.perform_bag hname s.fresh) (hset.map Handle.entries)
  have hbind : ((Command.bind new (.entrySet name)).run s.table).Gives s.fresh
      (.ok (.done, s.table.bind new (.entries ⟨v⟩))) s.registry.contents :=
    hmake.map fun handle => (Answer.done, s.table.bind new handle)
  exact step_of_gives watched hbind

/-! ## Descending views -/

/-- As long as a view exists, what was made by reversing it can be reached from it. -/
theorem Makes.canReach_reversed {watched : List String} {c : Command α}
    (h : s.Makes watched c .reversed v w) (hs : s.Sound) {reg : Registry α} (hl : reg.Live v)
    (hreach : reg.canReach v = true) (hatt : v.root.access ≠ .detached) :
    reg.canReach w = true := by
  generalize hst : ViewStep.reversed = st at h
  cases h with
  | bag hname hdone hnew =>
    subst hst
    obtain ⟨made, reg', -, hsup, hmakes, -, htable⟩ := view_of_outcome hs hname hdone
    rw [htable, Table.find?_bind_self] at hnew
    obtain rfl := Handle.bag.inj (Option.some.inj hnew)
    rw [Registry.canReach_enroll hsup]
    exact View.Reverses.canReach hmakes hl hreach hatt
  | elements hname hdone hnew =>
    obtain ⟨made, reg', -, hsup, hmakes, -, htable⟩ := elements_of_outcome hs hname hdone
    rw [htable, Table.find?_bind_self] at hnew
    obtain rfl := Handle.elements.inj (Option.some.inj hnew)
    rw [Registry.canReach_enroll hsup]
    exact Registry.canReach_of_makes hmakes hreach

theorem LeadsTo.eq_of_nil (h : s.LeadsTo v t w []) : w = v := by
  generalize hpath : ([] : List (ViewStep α)) = path at h
  induction h with
  | start => rfl
  | wait _ _ _ ih => exact ih hpath
  | step _ _ _ => simp at hpath

theorem LeadsTo.canReach_reversed (h : s.LeadsTo v t w [.reversed]) (hs : s.Reachable)
    {reg : Registry α} (hl : reg.Live v) (hreach : reg.canReach v = true)
    (hatt : v.root.access ≠ .detached) : reg.canReach w = true := by
  generalize hpath : [ViewStep.reversed] = path at h
  induction h with
  | start => cases hpath
  | wait _ _ _ ih => exact ih hpath
  | step h hmade _ =>
    obtain ⟨hnil, hst⟩ : [] = _ ∧ [ViewStep.reversed] = [_] := List.append_inj' hpath rfl
    obtain rfl := List.singleton_inj.mp hst
    subst hnil
    obtain rfl := h.eq_of_nil
    exact hmade.canReach_reversed (h.spec hs).1.sound hl hreach hatt

/-- What is in a set of entries does not depend on their order. -/
theorem Collects.contains_reversed {dset : String} {c : Comparator α} {es : List (Entry α)}
    (h : s.Collects set c es) (h' : s.Collects dset c.reversed es.reverse) (e : Entry α)
    (he : 1 ≤ e.count) :
    ∃ b : Bool, s.Reads (.askEntries set (.contains e)) (.flag b) ∧
      s.Reads (.askEntries dset (.contains e)) (.flag b) := by
  obtain ⟨b, hb, hiff⟩ := h.contains e he
  obtain ⟨b', hb', hiff'⟩ := h'.contains e he
  have hsame : b' = b := by
    rw [Bool.eq_iff_iff, hiff, hiff']
    simp only [List.mem_reverse, Comparator.compare_reversed, Ordering.swap_eq_eq]
  rw [hsame] at hb'
  exact ⟨b, hb, hb'⟩

/-! ## The entry sets of a bag -/

/-- A bag always hands out its entry set. Whatever is known as that set lists what the bag lists,
and an entry is in it exactly if the bag lists an element that compares equal with the same count;
no entry is in it whose element the bag does not let through. The bag has a descending view as well,
and whatever is known as the entry set of a descending view that was made from the bag, now or
earlier, lists the same entries in reverse and has the same entries in it. -/
theorem entry_sets_agree {name : String} (hs : s.Reachable)
    (hname : s.table.find? name = some (.bag v)) (hreach : s.registry.canReach v = true)
    (hatt : v.root.access ≠ .detached) :
    ∃ (c : Comparator α) (es : List (Entry α)),
      s.HandsOut (.comparatorOf name) c ∧
      s.Reads (.askBag name (.entries .ascending)) (.entries es) ∧
      (∀ new watched,
        (s.step watched (.bind new (.entrySet name))).1.outcome = .ok .done ∧
        (s.step watched (.bind new (.entrySet name))).2.table =
          s.table.bind new (.entries ⟨v⟩) ∧
        (s.step watched (.bind new (.entrySet name))).2.registry.contents =
          s.registry.contents) ∧
      (∀ set, s.table.find? set = some (.entries ⟨v⟩) →
        s.Collects set c es ∧
        ∀ e : Entry α, 1 ≤ e.count → v.admits e.element = false →
          s.Reads (.askEntries set (.contains e)) (.flag false)) ∧
      (∀ d watched, s.table.find? d = none →
        (s.step watched (.bind d (.view name .reversed))).1.outcome = .ok .done ∧
        ∃ w, (s.step watched (.bind d (.view name .reversed))).2.table.find? d =
            some (.bag w) ∧
          (s.step watched (.bind d (.view name .reversed))).2.registry.canReach w = true ∧
          s.LeadsTo v (s.step watched (.bind d (.view name .reversed))).2 w [.reversed]) ∧
      ∀ earlier w, Reachable earlier → LeadsTo earlier v s w [.reversed] →
        ∀ dset, s.table.find? dset = some (.entries ⟨w⟩) →
          s.Collects dset c.reversed es.reverse ∧
          ∀ set, s.table.find? set = some (.entries ⟨v⟩) → ∀ e : Entry α, 1 ≤ e.count →
            ∃ b : Bool, s.Reads (.askEntries set (.contains e)) (.flag b) ∧
              s.Reads (.askEntries dset (.contains e)) (.flag b) := by
  have hsound := hs.sound
  refine ⟨v.order, v.listing s.registry.contents, hsound.handsOut hname hreach,
    hsound.reads_bag hname hreach (.inl rfl) rfl rfl,
    fun new watched => hsound.entrySet hname watched new, ?_, ?_, ?_⟩
  · intro set hset
    have hcollects := hsound.collects hset hreach hatt
    refine ⟨hcollects, fun e he hout => ?_⟩
    obtain ⟨b, hb, hiff⟩ := hcollects.contains e he
    have hfalse : b = false := by
      rw [← Bool.not_eq_true, hiff]
      rintro ⟨f, hf, hcmp, -⟩
      exact View.compare_ne_eq_of_admits hout hf hcmp
    rwa [hfalse] at hb
  · intro d watched hd
    obtain ⟨w, -, hdone, hfind, hreachw⟩ := hs.reversed hname hreach hatt hd watched
    exact ⟨hdone, w, hfind, hreachw, LeadsTo.start.step (.bag hname hdone hfind)⟩
  · intro earlier w hearlier hleads dset hdset
    have hleaves := View.leaves_reversed_iff.mp (hleads.spec hearlier).2
    have hreachw := hleads.canReach_reversed hearlier (hsound.live.find? hname) hreach hatt
    have hcollects := hsound.collects hdset hreachw (hleaves.1 ▸ hatt)
    rw [hleaves.2.1, hleaves.2.2] at hcollects
    exact ⟨hcollects, fun set hset =>
      (hsound.collects hset hreach hatt).contains_reversed hcollects⟩

/-- The reversed numbers have an entry set of their own, made before that of the numbers. Three
occurs once and not twice, in either of them. -/
theorem entry_sets_agree_threeReversed :
    let first := (threeReversed.step [] (.bind "e" (.entrySet "d"))).2
    let both := (first.step [] (.bind "f" (.entrySet "s"))).2
    both.Reads (.askEntries "f" .entries) (.entries [⟨1, 1⟩, ⟨3, 1⟩, ⟨5, 1⟩]) ∧
      both.Reads (.askEntries "e" .entries) (.entries [⟨5, 1⟩, ⟨3, 1⟩, ⟨1, 1⟩]) ∧
      both.Reads (.askEntries "e" .size) (.number 3) ∧
      both.Reads (.askEntries "f" (.contains ⟨3, 1⟩)) (.flag true) ∧
      both.Reads (.askEntries "f" (.contains ⟨3, 2⟩)) (.flag false) ∧
      both.Reads (.askEntries "e" (.contains ⟨3, 1⟩)) (.flag true) := by
  intro first both
  let b : Source Int := ⟨0, 0, ⟨0, .natural, false⟩, .indexed⟩
  let w : View Int := .descending (some 1) .weak (.source b)
  have hs : threeReversed.table.find? "s" = some (.bag (.source b)) := rfl
  have hd : threeReversed.table.find? "d" = some (.bag w) := rfl
  have hfirst : first.Reachable :=
    threeReversed_reachable.next (c := .bind "e" (.entrySet "d")) trivial []
  have hboth : both.Reachable := hfirst.next (c := .bind "f" (.entrySet "s")) trivial []
  have hs' : both.table.find? "s" = some (.bag (.source b)) := rfl
  obtain ⟨c, es, hcomp, hentries, -, hsets, -, hreversed⟩ :=
    entry_sets_agree hboth hs' rfl (by decide)
  have hc := (hboth.sound.handsOut hs' rfl "c" []).2.symm.trans (hcomp "c" []).2
  obtain rfl : ⟨0, .natural, false⟩ = c := Handle.comparator.inj (Option.some.inj hc)
  -- the entries are those before the sets were made
  have hcontents : both.registry.contents = threeReversed.registry.contents :=
    (hfirst.sound.entrySet (v := .source b) rfl [] "f").2.2.trans
      (threeReversed_reachable.sound.entrySet hd [] "e").2.2
  have hlists : both.Lists (.source b) (View.listing both.registry.contents (.source b)) :=
    hboth.sound.lists rfl
  rw [hcontents] at hlists
  obtain rfl : [⟨1, 1⟩, ⟨3, 1⟩, ⟨5, 1⟩] = es :=
    Answer.entries.inj ((hlists "s" hs').1.unique hentries)
  have hleads : threeNumbers.LeadsTo (.source b) both w [.reversed] := by
    have hmade : threeNumbers.Makes [] (.bind "d" (.view "s" .reversed)) .reversed (.source b) w :=
      .bag rfl rfl rfl
    have hmade' := LeadsTo.start.step hmade
    exact (hmade'.wait (c := .bind "e" (.entrySet "d")) trivial []).wait
      (c := .bind "f" (.entrySet "s")) trivial []
  obtain ⟨he, hsame⟩ := hreversed threeNumbers w threeNumbers_reachable hleads "e" rfl
  have hf := (hsets "f" rfl).1
  obtain ⟨yes, hyes, hyes'⟩ := hf.contains ⟨3, 1⟩ (by decide)
  obtain ⟨no, hno, hno'⟩ := hf.contains ⟨3, 2⟩ (by decide)
  obtain ⟨also, halso, halso'⟩ := hsame "f" rfl ⟨3, 1⟩ (by decide)
  obtain rfl : yes = true := hyes'.mpr ⟨⟨3, 1⟩, by simp, rfl, rfl⟩
  obtain rfl : no = false := by
    rw [← Bool.not_eq_true, hno']
    simp
  obtain rfl : also = true := Answer.flag.inj (halso.unique hyes)
  exact ⟨hf.entries, he.entries, he.size, hyes, hno, halso'⟩

/-- The entry set of a source that miscounts lists what is stored, and says that it is empty. -/
theorem not_entry_sets_agree_overfull :
    let told (a : Arithmetic) := ((overfull a).run [] [.bind "e" (.entrySet "s"),
      .askEntries "e" .entries, .askEntries "e" .size,
      .askEntries "e" .isEmpty]).1.map Report.outcome
    told .wrapping = [.ok .done, .ok (.entries [⟨1, maxCount⟩, ⟨2, 1⟩]), .ok (.number 2),
        .ok (.flag true)] ∧
      told .checked = [.ok .done, .ok (.entries [⟨2, 1⟩]), .ok (.number 1), .ok (.flag true)] :=
  ⟨rfl, rfl⟩

end Session

end OrderedBag
