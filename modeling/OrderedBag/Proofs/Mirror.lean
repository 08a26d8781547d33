import OrderedBag.Proofs.Exploring

/-!
# The descending view is a mirror

A descending view answers everything with the roles of both ends exchanged, and hands on what it
does not do itself. An explorer cannot tell: exploring the descending view of a source is like
exploring another source, with the reversed comparator and with the same entries the other way
around. Both sources go on to mirror each other while entries are removed through them. There is one
exception: whoever asks whether there is anything may be misled by a source that miscounts.

* `Session.tellsDue_exploring` — exploring a view only tells what there is to see of it
* `Session.reversed_mirrors` — the descending view and the other source tell the same
-/

namespace OrderedBag

variable {α : Type}

/-! ## Views that an explorer starts from -/

namespace Outlook

/-- The outlook of a view that goes by a name, before anything is explored. -/
def ofView (contents : BagId → Histogram α) (name : String) (v : View α) : Outlook α :=
  ⟨v.order, v.listing contents, fun x => if x = name then some (.bag []) else none⟩

variable {o : Outlook α} {contents : BagId → Histogram α} {M : Source α}
  {base : List (ViewStep α)} {v : View α}

theorem reflects_ofView (h : v.Means M base) (name : String) :
    (ofView contents name v).Reflects contents M base where
  comparator := by
    show v.order = _
    rw [v.order_eq, h.root, h.facing]
  entries := by
    show v.listing contents = _
    rw [v.listing_eq, h.root, h.facing]
    simp only [h.admits]

/-- The outlook of a source shows its entries. -/
theorem Reflects.entries_source (h : o.Reflects contents M []) :
    o.entries = (contents M.bag).entries :=
  h.entries.trans (List.filter_eq_self.mpr fun _ _ => rfl)

/-- The outlook of a descending view shows the entries of the source backwards. -/
theorem Reflects.entries_reversed (h : o.Reflects contents M [.reversed]) :
    o.entries = (contents M.bag).entries.reverse := by
  have hall : (contents M.bag).entries.filter (fun e =>
      ViewStep.satisfies M.comparator [.reversed] e.element) = (contents M.bag).entries :=
    List.filter_eq_self.mpr fun _ _ => rfl
  rw [h.entries, hall]
  rfl

end Outlook

namespace Session

variable {s t : Session α} {M N : Source α} {v : View α} {name : String}
  {es : List (Exploration α)}

/-- The names that an explorer uses mean nothing yet, apart from the name that is there at first,
and none is given twice. So whatever was made is kept. -/
structure Explorable (s : Session α) (name : String) (es : List (Exploration α)) : Prop where
  unused : ∀ e ∈ es, ∀ x, x = e.asked ∨ e.new? = some x → x = name ∨ s.table.find? x = none
  once : (name :: es.filterMap Exploration.new?).Nodup

theorem Explorable.take (h : s.Explorable name es) (k : Nat) : s.Explorable name (es.take k) where
  unused := fun e he => h.unused e (List.mem_of_mem_take he)
  once := h.once.sublist (((List.take_sublist k es).filterMap _).cons_cons name)

/-- At first the outlook is that of the view at hand. -/
theorem follows_ofView (hs : s.Sound) (hname : s.table.find? name = some (.bag v))
    {base : List (ViewStep α)} (hm : v.Means M base) (hb : v.Backed s.table.held) :
    s.Follows M base (fun x => x = name ∨ s.table.find? x = none)
      (.ofView s.registry.contents name v) where
  sound := hs
  reflects := Outlook.reflects_ofView hm name
  shown := by
    intro x y hy
    by_cases hx : x = name
    · subst hx
      obtain rfl : Showing.bag [] = y := by simpa [Outlook.ofView] using hy
      exact ⟨.bag v, hname, by rwa [Handle.Shows, List.append_nil], hb⟩
    · simp [Outlook.ofView, hx] at hy
  hidden := by
    rintro x (rfl | hx) hnone
    · simp [Outlook.ofView] at hnone
    · exact hx

/-! ## Views that were reversed once -/

variable [Ord α] [Std.TransOrd α] [Shown α]

theorem Obtained.eq_source (h : Obtained M s v []) : v = .source M := by
  generalize hpath : ([] : List (ViewStep α)) = path at h
  induction h with
  | root _ _ => rfl
  | step _ _ _ _ _ => simp at hpath
  | later _ _ _ ih => exact ih hpath

/-- One step that reverses a source leads to the descending view which the source has registered. -/
theorem Obtained.eq_descending (h : Obtained M s v [.reversed]) :
    ∃ j, v = .descending j .weak (.source M) := by
  generalize hpath : [ViewStep.reversed] = path at h
  induction h with
  | root _ _ => cases hpath
  | later _ _ _ ih => exact ih hpath
  | @step s v w path st name new watched h hname hdone hnew _ =>
    obtain ⟨rfl, rfl⟩ : path = [] ∧ st = .reversed := by
      cases path with
      | nil => exact ⟨rfl, (List.cons.inj hpath).1.symm⟩
      | cons _ _ => simp at hpath
    obtain rfl := h.eq_source
    obtain ⟨u, reg, -, -, hmakes, -, htable⟩ := view_of_outcome h.reachable.sound hname hdone
    rw [htable, Table.find?_bind_self] at hnew
    obtain rfl : (reg.enroll u).1 = w := Handle.bag.inj (Option.some.inj hnew)
    -- a source is not descending, so its own descending view is made or found
    rcases hmakes with ⟨n, link, hsource⟩ | ⟨-, j, rfl⟩
    · cases hsource
    · cases j <;> exact ⟨_, rfl⟩

/-! ## Exploring -/

section

variable (hs : s.Sound) (hname : s.table.find? name = some (.bag v)) {base : List (ViewStep α)}
  (hm : v.Means M base) (hb : v.Backed s.table.held) (hM : M.access ≠ .detached)
  (he : s.Explorable name es) (watched : List String)
include hs hname hm hb hM he

/-- The session follows what there is to see of a view while the view is explored, and where
nothing miscounts it tells that. -/
theorem follows_exploring :
    (M.Uncounted base → (run watched s (es.map Exploration.command)).1.map Report.outcome =
      ((Outlook.ofView s.registry.contents name v).run es).1) ∧
    (run watched s (es.map Exploration.command)).2.Follows M base
      (fun x => x = name ∨ s.table.find? x = none)
      ((Outlook.ofView s.registry.contents name v).run es).2 := by
  refine (follows_ofView hs hname hm hb).run watched hM
    (fun e hmem => he.unused e hmem _ (.inl rfl))
    (fun new hmem => ?_) (List.nodup_cons.mp he.once).2
  obtain ⟨e, he', hgiven⟩ := List.mem_filterMap.mp hmem
  have hne : new ≠ name := fun heq => (List.nodup_cons.mp he.once).1 (heq ▸ hmem)
  exact ⟨he.unused e he' _ (.inr hgiven), if_neg hne⟩

/-- What an explorer of a view is told, step by step, is what there is to see of it, unless the
question is misled. -/
theorem tellsDue_exploring {k : Nat} {e : Exploration α} (hk : es[k]? = some e) :
    let after := (run watched s ((es.take k).map Exploration.command)).2
    let seen := ((Outlook.ofView s.registry.contents name v).run (es.take k)).2
    after.TellsDue e.command (after.step watched e.command).1.outcome (seen.step e).1 := by
  have hmem : e ∈ es := List.mem_of_getElem? hk
  have hfollows := (follows_exploring hs hname hm hb hM (he.take k) watched).2
  refine (hfollows.step watched hM (he.unused e hmem _ (.inl rfl)) fun new hgiven => ?_).1
  refine ⟨he.unused e hmem _ (.inr hgiven), ?_⟩
  -- the name that is given now was not given before
  have hfirst : new ∉ name :: (es.take k).filterMap Exploration.new? := by
    have hsplit : es.take (k + 1) = es.take k ++ [e] := by
      rw [List.take_add_one, hk]
      rfl
    have honce := (he.take (k + 1)).once
    rw [hsplit, List.filterMap_append, List.filterMap_cons_some hgiven, ← List.cons_append] at honce
    exact fun hnew => List.disjoint_of_nodup_append honce hnew List.mem_cons_self
  rw [Outlook.names_run _ fun hnew => hfirst (List.mem_cons_of_mem _ hnew)]
  exact if_neg fun heq : new = name => hfirst (heq ▸ List.mem_cons_self)

end

/-- The descending view of a source tells the same as another source that holds the same entries
backwards and does not keep count of them, whatever is asked of them and of the views and sets that
are made from them on the way. Only who asks a view of the first source that miscounts whether it is
empty is told that it is, and the other source says that it is not. All the time the entries of the
one are those of the other backwards. -/
theorem reversed_mirrors (hv : Obtained M s v [.reversed])
    (hname : s.table.find? name = some (.bag v)) {held : String}
    (hheld : s.table.find? held = some (.bag (.source M))) (hM : M.access ≠ .detached)
    (ht : t.Reachable) (hmirror : t.table.find? name = some (.bag (.source N)))
    (hN : N.access ≠ .detached) (hcount : N.access ≠ .indexed)
    (horder : N.comparator = M.comparator.reversed)
    (hentries : (t.registry.contents N.bag).entries =
      (s.registry.contents M.bag).entries.reverse)
    (hs : s.Explorable name es) (ht' : t.Explorable name es) (watched : List String) :
    (∀ k e, es[k]? = some e →
      let s' := (run watched s ((es.take k).map Exploration.command)).2
      let t' := (run watched t ((es.take k).map Exploration.command)).2
      s'.TellsDue e.command (s'.step watched e.command).1.outcome
        (t'.step watched e.command).1.outcome) ∧
      ∀ k, ((run watched t ((es.take k).map Exploration.command)).2.registry.contents
          N.bag).entries =
        ((run watched s ((es.take k).map Exploration.command)).2.registry.contents
          M.bag).entries.reverse := by
  obtain ⟨j, rfl⟩ := hv.eq_descending
  have hmeans : (View.descending j .weak (.source M)).Means M [.reversed] := hv.spec.2.2
  have hsource : (View.source N).Means N [] := View.means_source N
  have hmem : M.node ∈ s.table.held := Table.mem_held (Table.mem_of_find? hheld) rfl
  have hbacked : (View.descending j .weak (.source M)).Backed s.table.held :=
    ⟨⟨M.node, hmem, rfl⟩, trivial⟩
  -- there is the same to see in both sessions, and that decides what is told
  have hsame : Outlook.ofView t.registry.contents name (.source N) =
      Outlook.ofView s.registry.contents name (.descending j .weak (.source M)) := by
    show Outlook.mk N.comparator (t.registry.contents N.bag).entries _ =
      Outlook.mk M.comparator.reversed (s.registry.contents M.bag).entries.reverse _
    rw [horder, hentries]
  refine ⟨fun k e hk => ?_, fun k => ?_⟩
  · have hleft := tellsDue_exploring hv.reachable.sound hname hmeans hbacked hM hs watched hk
    have hright := tellsDue_exploring ht.sound hmirror hsource trivial hN ht' watched hk
    have hfollows := (follows_exploring ht.sound hmirror hsource trivial hN (ht'.take k) watched).2
    have hasked := ht'.unused e (List.mem_of_getElem? hk) _ (.inl rfl)
    rw [hsame] at hright
    dsimp only
    rw [hright.quiet (hfollows.not_misled (.inl hcount) hasked)]
    exact hleft
  · have hl := (follows_exploring hv.reachable.sound hname hmeans hbacked hM (hs.take k)
      watched).2.reflects.entries_reversed
    have hr := (follows_exploring ht.sound hmirror hsource trivial hN (ht'.take k)
      watched).2.reflects.entries_source
    rw [← hl, ← hr, hsame]

/-- A session with an empty source that orders numbers the other way around. -/
def backwards : Session Int :=
  (run [] (empty .wrapping) [.bind "c" (.comparator .natural), .bind "b" (.reversedComparator "c"),
    .bind "d" (.source .copying (.named "b"))]).2

/-- A session with the three numbers in that source. -/
def threeBackwards : Session Int :=
  (((backwards.step [] (.change "d" (.insert 1))).2.step [] (.change "d" (.insert 3))).2.step []
    (.change "d" (.insert 5))).2

theorem threeBackwards_reachable : threeBackwards.Reachable := by
  have hs : backwards.Reachable :=
    Reachable.initial.run (by simp [Command.Valid, Making.Valid]) []
  have hinsert {s : Session Int} (hs : s.Reachable) (x : Int) :
      (s.step [] (.change "d" (.insert x))).2.Reachable :=
    hs.next (c := .change "d" (.insert x)) trivial []
  exact hinsert (hinsert (hinsert hs 1) 3) 5

/-- Takes the head of a bag, polls it, looks at what is left, and asks for too much. -/
def headExplorations : List (Exploration Int) :=
  [.derive "h" (.view "d" (.head ⟨3, .inclusive⟩)), .askBag "h" (.poll .ascending),
    .derive "e" (.elementSet "h"), .askElements "e" (.elements .descending),
    .derive "x" (.view "h" (.sub ⟨1, .inclusive⟩ ⟨3, .inclusive⟩))]

theorem explorable_headExplorations {s : Session Int} (hh : s.table.find? "h" = none)
    (he : s.table.find? "e" = none) (hx : s.table.find? "x" = none) :
    s.Explorable "d" headExplorations where
  unused := by
    simp [headExplorations, Exploration.asked, Exploration.new?, Derivation.origin, hh, he, hx]
  once := by decide

theorem reversed_mirrors_three :
    (run [] threeReversed (headExplorations.map Exploration.command)).1.map Report.outcome =
        [.ok .done, .ok (.maybeEntry (some ⟨5, 1⟩)), .ok .done, .ok (.elements [3]),
          .error .invalidRange] ∧
      (∀ k e, headExplorations[k]? = some e →
        ((run [] threeReversed ((headExplorations.take k).map Exploration.command)).2.step []
            e.command).1.outcome =
          ((run [] threeBackwards ((headExplorations.take k).map Exploration.command)).2.step []
            e.command).1.outcome) ∧
      ((run [] threeBackwards
          (headExplorations.map Exploration.command)).2.registry.contents 0).entries =
        ((run [] threeReversed
          (headExplorations.map Exploration.command)).2.registry.contents 0).entries.reverse := by
  let M : Source Int := ⟨0, 0, ⟨0, .natural, false⟩, .indexed⟩
  let N : Source Int := ⟨0, 0, ⟨0, .natural, true⟩, .copying⟩
  have hs : threeNumbers.table.find? "s" = some (.bag (.source M)) := rfl
  have hd : threeReversed.table.find? "d" = some (.bag (.descending (some 1) .weak (.source M))) :=
    rfl
  have hv : Obtained M threeReversed (.descending (some 1) .weak (.source M)) [.reversed] :=
    .step (.root threeNumbers_reachable hs) hs rfl hd
  have hn : threeBackwards.table.find? "d" = some (.bag (.source N)) := rfl
  have hheld : threeReversed.table.find? "s" = some (.bag (.source M)) := rfl
  have hforth : (threeReversed.registry.contents M.bag).entries = [⟨1, 1⟩, ⟨3, 1⟩, ⟨5, 1⟩] := rfl
  have hback : (threeBackwards.registry.contents N.bag).entries = [⟨5, 1⟩, ⟨3, 1⟩, ⟨1, 1⟩] := rfl
  have hvalues : (threeBackwards.registry.contents N.bag).entries =
      (threeReversed.registry.contents M.bag).entries.reverse := by
    rw [hforth, hback]
    rfl
  obtain ⟨htold, hentries⟩ := reversed_mirrors hv hd hheld (by decide) threeBackwards_reachable
    hn (by decide) (by decide) rfl hvalues (explorable_headExplorations rfl rfl rfl)
    (explorable_headExplorations rfl rfl rfl) []
  refine ⟨rfl, fun k e hk => (htold k e hk).quiet ?_, ?_⟩
  · -- nobody asks whether there is anything
    have hmem : e ∈ headExplorations := List.mem_of_getElem? hk
    simp only [headExplorations, List.mem_cons, List.not_mem_nil, or_false] at hmem
    rcases hmem with rfl | rfl | rfl | rfl | rfl <;> exact fun ⟨_, hw, _⟩ => nomatch hw
  · have hlast := hentries headExplorations.length
    rwa [List.take_length] at hlast

/-- Makes the descending view of a source that miscounts, and another source with the same entries
backwards, which does not keep count of them. -/
def mirroring (a : Arithmetic) : List (Command Int) :=
  [.bind "d" (.view "s" .reversed), .bind "c" (.comparatorOf "s"),
    .bind "b" (.reversedComparator "c"), .bind "n" (.source .copying (.named "b"))] ++
  match a with
  | .wrapping => [.change "n" (.insertMany 1 maxCount), .change "n" (.insert 2)]
  | .checked => [.change "n" (.insert 2)]

/-- The descending view says that it is empty, and the other source says that it is not. -/
theorem not_reversed_mirrors_overfull :
    let told (a : Arithmetic) (name : String) := ((run [] (overfull a) (mirroring a)).2.run []
      [.askBag name (.entries .ascending), .askBag name .isEmpty]).1.map Report.outcome
    told .wrapping "d" = [.ok (.entries [⟨2, 1⟩, ⟨1, maxCount⟩]), .ok (.flag true)] ∧
      told .wrapping "n" = [.ok (.entries [⟨2, 1⟩, ⟨1, maxCount⟩]), .ok (.flag false)] ∧
      told .checked "d" = [.ok (.entries [⟨2, 1⟩]), .ok (.flag true)] ∧
      told .checked "n" = [.ok (.entries [⟨2, 1⟩]), .ok (.flag false)] :=
  ⟨by decide +kernel, by decide +kernel, by decide +kernel, by decide +kernel⟩

end Session

end OrderedBag
