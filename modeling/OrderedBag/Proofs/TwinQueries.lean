import OrderedBag.Proofs.Extending
import OrderedBag.Proofs.Frame
import OrderedBag.Proofs.TwinActions

/-!
# Asking twins

Two views that differ only in how their sources answer, and that show nothing outside of the scope,
have the same entries ahead of a visit, and answer the same to every question, unless it is whether
they are empty and only one of them miscounts. Two sources of which nothing lies outside of the
scope are filled alike.

* `Source.insert_matches`, `Source.absorb_matches` — filling sources
* `Walk.SameItems` — two iterators that yield the same
* `Visit.run_matches`, `ElementSet.scanTowards_matches` — opening iterators
* `View.Paired.concurs_of_twin`, `View.Paired.vacant_eq` — when two views agree on being empty
* `BagQuery.run_matches`, `ElementQuery.run_matches`, `EntryQuery.run_matches` — asking
-/

namespace OrderedBag

open OrderedBag.Action

variable {α β γ : Type} {S : Scope α} {reg reg' : Registry α}

/-! ## Filling sources -/

namespace Source

variable {s s' : Source α}

/-- Sources that differ only in how they answer have the same contents, if nothing of them lies
outside of the scope. -/
theorem contents_of_core (hr : reg.Twins S reg') (h : s'.core = s.core)
    (hwhole : ∀ x, S s.bag x = true) : reg'.contents s'.bag = reg.contents s.bag := by
  rw [bag_of_core h]
  exact hr.contents.whole s.bag hwhole

theorem previous?_of_core (hr : reg.Twins S reg') (h : s'.core = s.core)
    (hwhole : ∀ x, S s.bag x = true) (x : α) : s'.previous? reg' x = s.previous? reg x := by
  rw [previous?, contents_of_core hr h hwhole, comparator_of_core h, previous?]

/-- Both sources come to hold the same. -/
theorem twins_setContents (hr : reg.Twins S reg') (h : s'.core = s.core) (k : Histogram α) :
    (reg.setContents s.bag k).Twins S (reg'.setContents s'.bag k) := by
  rw [bag_of_core h]
  exact hr.setContents s.bag k

theorem insert_matches (hr : reg.Twins S reg') (h : s'.core = s.core)
    (hwhole : ∀ x, S s.bag x = true) (x : α) (n : Nat) :
    (s.insert x n).Matches S Eq (s'.insert x n) reg reg' := by
  have hp := perform_insert hr.wrapping s x n
  have hp' := perform_insert hr.wrapping' s' x n
  rw [contents_of_core hr h hwhole, comparator_of_core h, previous?_of_core hr h hwhole] at hp'
  cases hk : (reg.contents s.bag).insert? s.comparator x n with
  | none =>
    rw [hk] at hp hp'
    exact matches_of_perform hp hp' hr (.error _)
  | some k =>
    rw [hk] at hp hp'
    exact matches_of_perform hp hp' (twins_setContents hr h k) (.ok rfl)

theorem extend_matches (hr : reg.Twins S reg') (h : s'.core = s.core)
    (hwhole : ∀ x, S s.bag x = true) (xs : List α) :
    (s.extend xs).Matches S Eq (s'.extend xs) reg reg' := by
  induction xs generalizing reg reg' with
  | nil => exact matches_pure hr rfl
  | cons x xs ih => exact (insert_matches hr h hwhole x 1).bind fun _ _ _ _ _ hr => ih hr

theorem insertEntries_matches (hr : reg.Twins S reg') (h : s'.core = s.core)
    (hwhole : ∀ x, S s.bag x = true) (es : List (Entry α)) :
    (s.insertEntries es).Matches S Eq (s'.insertEntries es) reg reg' := by
  induction es generalizing reg reg' with
  | nil => exact matches_pure hr rfl
  | cons e es ih => exact (insert_matches hr h hwhole _ _).bind fun _ _ _ _ _ hr => ih hr

/-- Traversals with the same entries ahead of them, of which the sources take in the occurrences. -/
theorem absorb_matches (hr : reg.Twins S reg') (h : s'.core = s.core)
    (hwhole : ∀ x, S s.bag x = true) {t t' : Traversal α} (ht : t.feed.Agrees s)
    (ht' : t'.feed.Agrees s') (hfits : t.Fits reg.contents) (hfits' : t'.Fits reg'.contents)
    (hrem : t'.remaining reg'.contents = t.remaining reg.contents) :
    (s.absorb t).Matches S Eq (s'.absorb t') reg reg' := by
  have hextend := extend_matches hr h hwhole
    ((t.remaining reg.contents).flatMap Entry.occurrences)
  have hp := absorb_eq ht hfits
  have hp' := absorb_eq ht' hfits'
  rw [hrem] at hp'
  exact ⟨by rw [hp, hp']; exact hextend.registry, by rw [hp, hp']; exact hextend.outcome⟩

theorem remove_matches (hr : reg.Twins S reg') (h : s'.core = s.core)
    (hwhole : ∀ x, S s.bag x = true) (x : α) :
    (s.remove x).Matches S Eq (s'.remove x) reg reg' := by
  have hp' := perform_remove hr.wrapping' s' x
  rw [contents_of_core hr h hwhole, comparator_of_core h, previous?_of_core hr h hwhole] at hp'
  exact matches_of_perform (perform_remove hr.wrapping s x) hp' (twins_setContents hr h _)
    (.ok rfl)

theorem removeAll_matches (hr : reg.Twins S reg') (h : s'.core = s.core)
    (hwhole : ∀ x, S s.bag x = true) (x : α) :
    (s.removeAll x).Matches S Eq (s'.removeAll x) reg reg' := by
  have hp' := perform_removeAll hr.wrapping' s' x
  rw [contents_of_core hr h hwhole, comparator_of_core h, previous?_of_core hr h hwhole] at hp'
  exact matches_of_perform (perform_removeAll hr.wrapping s x) hp' (twins_setContents hr h _)
    (.ok rfl)

theorem clear_matches (hr : reg.Twins S reg') (h : s'.core = s.core) :
    s.clear.Matches S Eq s'.clear reg reg' :=
  matches_modify (twins_setContents hr h .empty)

/-- A source that has just been made holds nothing. -/
theorem contents_makeNatural [Ord α] [Std.TransOrd α] (reg : Registry α) :
    ((makeNatural : Action α (Source α)).perform reg).2.contents = reg.contents :=
  Registry.contents_addSource (reg.evaluate .natural).2 (reg.evaluate .natural).1 .indexed

/-- Two sources that have just been made. -/
theorem makeNatural_matches [Ord α] [Std.TransOrd α] (hr : reg.Twins S reg') :
    (makeNatural : Action α (Source α)).Matches S
      (fun s s' => s' = s ∧ s.bag = reg.bags.size ∧ s.access = .indexed) makeNatural
      reg reg' := by
  obtain ⟨hcomp, hr₁⟩ := hr.evaluate .natural
  have hadd := hr₁.addSource (reg.evaluate .natural).1 (S.alike_refl .indexed)
  refine matches_updating ?_ ⟨?_, rfl, rfl⟩
  · show Registry.Twins S _ (Registry.addSource _ (reg'.evaluate .natural).1 _).2
    rw [hcomp]
    exact hadd.2
  · show (⟨reg'.nodes.size, reg'.bags.size, (reg'.evaluate .natural).1, .indexed⟩ : Source α) =
      ⟨reg.nodes.size, reg.bags.size, (reg.evaluate .natural).1, .indexed⟩
    rw [hr.size, hr.bags, hcomp]

end Source

/-! ## Iterators that yield the same -/

section

variable {k k' : BagId → Histogram α}

/-- Two traversals have the same entries ahead of them, each in contents of its own. -/
structure Traversal.SameAhead (k k' : BagId → Histogram α) (t t' : Traversal α) : Prop where
  fits : t.Fits k
  fits' : t'.Fits k'
  remaining : t'.remaining k' = t.remaining k

/-- They yield the same entry, and then again have the same entries ahead of them. -/
theorem Traversal.SameAhead.next {t t' : Traversal α} (h : SameAhead k k' t t') :
    (t'.next k').1 = (t.next k).1 ∧ SameAhead k k' (t.next k).2 (t'.next k').2 := by
  refine ⟨?_, fits_next h.fits, fits_next h.fits', ?_⟩
  · rw [next_fst, next_fst, h.remaining]
  · rw [remaining_next h.fits, remaining_next h.fits', h.remaining]

/-- Two visits of elements are due to repeat the same, and have the same entries ahead of them. -/
structure Occurrences.SameItems (k k' : BagId → Histogram α) (o o' : Occurrences α) : Prop where
  ahead : o.entries.SameAhead k k' o'.entries
  current : o'.current = o.current

theorem Occurrences.SameItems.next {o o' : Occurrences α} (h : SameItems k k' o o') :
    (o'.next k').1 = (o.next k).1 ∧ SameItems k k' (o.next k).2 (o'.next k').2 := by
  obtain ⟨t, current⟩ := o
  obtain ⟨t', current'⟩ := o'
  obtain ⟨hahead, hcurrent⟩ := h
  obtain rfl : current' = current := hcurrent
  obtain ⟨hfst, hsnd⟩ := hahead.next
  have hfetch : (fetched k' t').1 = (fetched k t).1 ∧
      SameItems k k' (fetched k t).2 (fetched k' t').2 := by
    unfold fetched
    rw [← Prod.eta (t.next k), ← Prod.eta (t'.next k'), hfst]
    cases (t.next k).1 with
    | none => exact ⟨rfl, hsnd, rfl⟩
    | some e => exact ⟨rfl, hsnd, rfl⟩
  -- as long as an element is due, nothing is fetched
  match current' with
  | none => exact hfetch
  | some (x, 0) => exact hfetch
  | some (x, n + 1) => exact ⟨rfl, hahead, rfl⟩

/-- Two iterators yield the same, each in contents of its own. -/
inductive Walk.SameItems (k k' : BagId → Histogram α) : Walk α → Walk α → Prop
  | entries {t t' : Traversal α} (h : t.SameAhead k k' t') :
      SameItems k k' (.entries t) (.entries t')
  | elements {t t' : Traversal α} (h : t.SameAhead k k' t') :
      SameItems k k' (.elements t) (.elements t')
  | occurrences {o o' : Occurrences α} (h : o.SameItems k k' o') :
      SameItems k k' (.occurrences o) (.occurrences o')

theorem Walk.SameItems.next {w w' : Walk α} (h : w.SameItems k k' w') :
    (w'.next k').1 = (w.next k).1 ∧ (w.next k).2.SameItems k k' (w'.next k').2 := by
  cases h with
  | entries h =>
    obtain ⟨hfst, hsnd⟩ := h.next
    exact ⟨congrArg (Option.map Item.entry) hfst, .entries hsnd⟩
  | elements h =>
    obtain ⟨hfst, hsnd⟩ := h.next
    exact ⟨congrArg (Option.map fun e : Entry α => Item.element e.element) hfst, .elements hsnd⟩
  | occurrences h =>
    obtain ⟨hfst, hsnd⟩ := h.next
    exact ⟨congrArg (Option.map Item.element) hfst, .occurrences hsnd⟩

theorem Walk.SameItems.nexts {w w' : Walk α} (h : w.SameItems k k' w') (n : Nat) :
    (w'.nexts k' n).1 = (w.nexts k n).1 := by
  induction n generalizing w w' with
  | zero => rfl
  | succ n ih =>
    obtain ⟨hfst, hsnd⟩ := h.next
    have hrest := ih hsnd
    show (w'.next k').1 :: ((w'.next k').2.nexts k' n).1 =
      (w.next k).1 :: ((w.next k).2.nexts k n).1
    rw [hfst, hrest]

end

/-! ## Reading -/

namespace View

variable {v w : View α}

theorem scan_ahead (hr : reg.Twins S reg') (hs : reg.Sound) (hs' : reg'.Sound)
    (h : Paired S reg reg' v w) (d : Direction) :
    SameOutcome (fun t t' => (v.scan reg d = .ok t ∧ w.scan reg' d = .ok t') ∧
      t.SameAhead reg.contents reg'.contents t') (v.scan reg d) (w.scan reg' d) := by
  rcases h.intact_or_broken hr hs hs' with ⟨hv, hw⟩ | ⟨hv, hw⟩
  · obtain ⟨t, hscan, hfits, hrem⟩ := scan_spec (hv.usable hs) d
    obtain ⟨t', hscan', hfits', hrem'⟩ := scan_spec (hw.usable hs') d
    rw [hscan, hscan']
    refine .ok ⟨⟨rfl, rfl⟩, hfits, hfits', ?_⟩
    rw [hrem, hrem', h.shared.listing_eq hr.contents h.core]
  · rw [hv.scan, hw.scan]
    exact .error _

theorem scanWithin_ahead (hr : reg.Twins S reg') (hs : reg.Sound) (hs' : reg'.Sound)
    (h : Paired S reg reg' v w) (d : Direction) (q : Interval α) :
    SameOutcome (Traversal.SameAhead reg.contents reg'.contents) (v.scanWithin reg d q)
      (w.scanWithin reg' d q) := by
  rcases h.intact_or_broken hr hs hs' with ⟨hv, hw⟩ | ⟨hv, hw⟩
  · obtain ⟨t, hscan, hfits, hrem⟩ := scanWithin_spec (hv.usable hs) d q
    obtain ⟨t', hscan', hfits', hrem'⟩ := scanWithin_spec (hw.usable hs') d q
    rw [hscan, hscan']
    refine .ok ⟨hfits, hfits', ?_⟩
    rw [hrem, hrem', h.shared.listing_eq hr.contents h.core, order_of_core h.core]
  · rw [hv.scanWithin, hw.scanWithin]
    exact .error _

theorem entries_outcome (hr : reg.Twins S reg') (hs : reg.Sound) (hs' : reg'.Sound)
    (h : Paired S reg reg' v w) : SameOutcome Eq (v.entries reg) (w.entries reg') := by
  rcases h.intact_or_broken hr hs hs' with ⟨hv, hw⟩ | ⟨hv, hw⟩
  · rw [entries_eq (hv.usable hs), entries_eq (hw.usable hs'),
      h.shared.listing_eq hr.contents h.core]
    exact .refl _
  · rw [hv.entries, hw.entries]
    exact .error _

/-- The order may be remembered when it is asked for, and the contents stay what they are. -/
theorem moves_of_comparator (hs : reg.Sound) (hv : reg.Houses v) {reg₁ : Registry α}
    {o : Except Failure (Comparator α)} (hp : v.comparator.perform reg = (o, reg₁)) :
    reg.Moves reg₁ ∧ reg₁.contents = reg.contents := by
  obtain ⟨o', hgives⟩ : ∃ o', v.comparator.Gives reg o' reg.contents := by
    rcases comparator_spec hs hv with h | ⟨-, h⟩ <;> exact ⟨_, h⟩
  obtain ⟨reg₂, hp', hm, hk⟩ := hgives
  obtain ⟨-, rfl⟩ := Prod.mk.inj (hp.symm.trans hp')
  exact ⟨hm, hk⟩

/-- What follows a visit whose interval is read in the order of the view, which may be remembered on
the way. -/
theorem scanExpr_bind_matches (hr : reg.Twins S reg') (hs : reg.Sound) (hs' : reg'.Sound)
    (h : Paired S reg reg' v w) (d : Direction) (q : IntervalExpr α) {P : β → γ → Prop}
    {f : Traversal α → Action α β} {f' : Traversal α → Action α γ}
    (hf : ∀ t t' reg₁ reg₁', reg₁.Twins S reg₁' → reg₁.contents = reg.contents →
      reg₁'.contents = reg'.contents → t.SameAhead reg.contents reg'.contents t' →
      (f t).Matches S P (f' t') reg₁ reg₁') :
    (v.scanExpr d q >>= f).Matches S P (w.scanExpr d q >>= f') reg reg' := by
  unfold scanExpr
  simp only [bind_assoc]
  refine (comparator_matches hr h.core).bind_run fun c c' reg₁ reg₁' hp hp' hc hr₁ => ?_
  subst hc
  obtain ⟨hm, hk⟩ := moves_of_comparator hs h.live.1 hp
  obtain ⟨hm', hk'⟩ := moves_of_comparator hs' h.live'.1 hp'
  obtain ⟨l, hl⟩ := require_answers c q reg₁
  obtain ⟨l', hl'⟩ := require_answers c q reg₁'
  have hrequire : (q.require c).Matches S Eq (q.require c) reg₁ reg₁' :=
    matches_of_answers hr₁ ⟨l, hl⟩ ⟨l', hl'⟩ (.refl _)
  refine hrequire.bind_run fun r r' reg₂ reg₂' hp hp' hr' hr₂ => ?_
  subst hr'
  obtain ⟨-, rfl⟩ := Prod.mk.inj (hp.symm.trans hl)
  obtain ⟨-, rfl⟩ := Prod.mk.inj (hp'.symm.trans hl')
  have hm := hm.trans (reg₁.moves_withLog l)
  have hm' := hm'.trans (reg₁'.moves_withLog l')
  have hahead := scanWithin_ahead hr₂ (hs.moves hm) (hs'.moves hm') (h.moves hm hm') d r
  simp only [Registry.contents_withLog, hk, hk'] at hahead
  exact .reading hr₂ hahead fun t t' ht => hf t t' _ _ hr₂ hk hk' ht

theorem scan_withLog (v : View α) (l : List Record) (d : Direction) :
    v.scan (reg.withLog l) d = v.scan reg d := by
  induction v generalizing d with
  | source s => rfl
  | range n s r => rfl
  | descending n link f ih =>
    show (do reg.follow link f; f.scan (reg.withLog l) d.flip) = _
    rw [ih]
    rfl

end View

/-- An iterator over a bag is opened. -/
theorem Visit.run_matches (hr : reg.Twins S reg') (hs : reg.Sound) (hs' : reg'.Sound)
    {v w : View α} (h : View.Paired S reg reg' v w) (visit : Visit α) :
    (visit.run v).Matches S (Walk.SameItems reg.contents reg'.contents) (visit.run w)
      reg reg' := by
  cases visit with
  | entries d =>
    exact .reading hr (View.scan_ahead hr hs hs' h d) fun _ _ ht =>
      matches_pure hr (.entries ht.2)
  | within d q =>
    exact View.scanExpr_bind_matches hr hs hs' h d q fun _ _ _ _ hr _ _ ht =>
      matches_pure hr (.entries ht)
  | occurrences =>
    have hvisit : SameOutcome (Occurrences.SameItems reg.contents reg'.contents)
        (v.occurrences reg) (w.occurrences reg') := by
      have hscan := View.scan_ahead hr hs hs' h .ascending
      unfold View.occurrences
      revert hscan
      generalize v.scan reg .ascending = o, w.scan reg' .ascending = o'
      rintro (⟨-, hahead⟩ | e)
      · exact .ok ⟨hahead, rfl⟩
      · exact .error e
    exact .reading hr hvisit fun _ _ ho => matches_pure hr (.occurrences ho)

/-- A visit of a set is a visit of its view. -/
theorem ElementSet.scanTowards_follows {u : ElementSet α}
    (hf : reg.follow u.link u.view = .ok ()) (d : Direction) :
    (u.scanTowards d).Answers reg (u.view.scan reg d) := by
  cases d with
  | ascending => exact .after (perform_bag hf) (answers_reading _)
  | descending =>
    refine (descending_answers hf).bind_ok fun l => ?_
    have hscan : (Action.reading fun reg =>
        (View.descending none .strong u.view).scan reg .ascending).Answers (reg.withLog l) _ :=
      answers_reading _
    rw [View.scan_withLog] at hscan
    exact .after (perform_bag (s := ⟨.strong, .descending none .strong u.view⟩) rfl) hscan

theorem ElementSet.scanTowards_matches (hr : reg.Twins S reg') (hs : reg.Sound)
    (hs' : reg'.Sound) {u u' : ElementSet α} (h : View.Paired S reg reg' u.view u'.view)
    (d : Direction) :
    (u.scanTowards d).Matches S (Traversal.SameAhead reg.contents reg'.contents)
      (u'.scanTowards d) reg reg' :=
  matches_of_answers hr (scanTowards_follows (View.follow_eq_ok h.live h.shared.attached _) d)
    (scanTowards_follows (View.follow_eq_ok h.live' h.attached' _) d)
    ((View.scan_ahead hr hs hs' h d).mono fun _ _ ht => ht.2)

theorem EntrySet.scan_matches (hr : reg.Twins S reg') (hs : reg.Sound) (hs' : reg'.Sound)
    {u u' : EntrySet α} (h : View.Paired S reg reg' u.view u'.view) :
    u.scan.Matches S (Traversal.SameAhead reg.contents reg'.contents) u'.scan reg reg' := by
  let e : ElementSet α := ⟨.weak, u.view⟩
  let e' : ElementSet α := ⟨.weak, u'.view⟩
  have hscan : View.Paired S reg reg' e.view e'.view := h
  exact ElementSet.scanTowards_matches hr hs hs' hscan .ascending

/-! ## Telling whether there is anything -/

namespace View

variable {v w : View α} {k k' : BagId → Histogram α}

/-- If the one view miscounts, so does the other, and they say the same when they are asked whether
they are empty. -/
def Concurs (k k' : BagId → Histogram α) (v w : View α) : Prop :=
  v.Miscounts k → w.Miscounts k'

/-- A view miscounts if its twin does, and keeps a running total as well. -/
theorem Miscounts.of_core (hm : v.Miscounts k) (h : w.core = v.core)
    (hk : k' v.root.bag = k v.root.bag) (ha : w.root.access = .indexed) : w.Miscounts k' := by
  induction v generalizing w with
  | source s =>
    obtain ⟨s', rfl, hs⟩ := source_of_core h
    have hbag : k' s'.bag = k s.bag := by
      rw [Source.bag_of_core hs]
      exact hk
    refine ⟨ha, ?_⟩
    rw [hbag]
    exact hm.2
  | range n s r => exact hm.elim
  | descending n link f ih =>
    obtain ⟨g, rfl, hg⟩ := descending_of_core h
    exact ih (w := g) hm hg hk ha

namespace Paired

variable (h : Paired S reg reg' v w) (hr : reg.Twins S reg') (hs : reg.Sound) (hs' : reg'.Sound)
include h hr hs hs'

/-- The sources behind are alike. -/
theorem alike : S.alike v.root.access w.root.access := by
  have hnode : w.root.node = v.root.node := by
    have hcore : w.root.core.node = v.root.core.node := congrArg Source.node (root_of_core h.core)
    exact hcore
  have hw := (h.live'.1.root hs'.wellFormed).access?_eq
  rw [hnode] at hw
  exact hr.access _ _ _ (h.live.1.root hs.wellFormed).access?_eq hw

/-- A twin miscounts only where the view does. -/
theorem concurs_of_twin : Concurs reg'.contents reg.contents w v := by
  intro hm
  have hindexed : v.root.access = .indexed :=
    S.alike_indexed (hm.indexed ▸ h.alike hr hs hs')
  refine hm.of_core h.core.symm ?_ hindexed
  rw [bag_of_core h.core]
  exact (hr.contents.whole _ fun x => h.shared.inside x (by
    rw [← admits_core, ← h.core, admits_core]
    exact hm.admits x)).symm

/-- Twins that answer in the same way concur. -/
theorem concurs_of_exact (hS : S.Exact) : v.Concurs reg.contents reg'.contents w := by
  intro hm
  have hindexed : w.root.access = .indexed :=
    (hS _ _ (h.alike hr hs hs')).trans hm.indexed
  exact hm.of_core h.core (hr.contents.whole _ fun x => h.shared.inside x (hm.admits x)) hindexed

/-- A twin that says that it is empty says it of the view as well. -/
theorem vacant_of_twin (hw : w.vacant reg'.contents = true) : v.vacant reg.contents = true := by
  rw [vacant_iff (hs'.stocks_root h.live'.1).2, h.shared.listing_eq hr.contents h.core] at hw
  rw [vacant_iff (hs.stocks_root h.live.1).2]
  exact hw.imp_right (h.concurs_of_twin hr hs hs')

/-- Views that concur say the same of whether they are empty. -/
theorem vacant_eq (hc : v.Concurs reg.contents reg'.contents w) :
    w.vacant reg'.contents = v.vacant reg.contents := by
  rw [Bool.eq_iff_iff, vacant_iff (hs'.stocks_root h.live'.1).2,
    vacant_iff (hs.stocks_root h.live.1).2, h.shared.listing_eq hr.contents h.core]
  exact or_congr_right ⟨h.concurs_of_twin hr hs hs', hc⟩

end Paired

end View

section

variable {C D : Prop}

/-- The answers are the same, or the condition does not hold, the first answer is that there is
nothing, and the second that there is something. -/
def Answer.SameWhen (C : Prop) (a a' : Answer α) : Prop :=
  a' = a ∨ ¬ C ∧ a = .flag true ∧ a' = .flag false

theorem Answer.SameWhen.imp {a a' : Answer α} (h : a.SameWhen C a') (hc : D → C) :
    a.SameWhen D a' :=
  h.imp_right fun ⟨hnot, hflags⟩ => ⟨fun hd => hnot (hc hd), hflags⟩

theorem Answer.sameWhen_flag {vacant vacant' : Bool} (h : C → vacant' = vacant)
    (htwin : vacant' = true → vacant = true) :
    (.flag vacant : Answer α).SameWhen C (.flag vacant') := by
  by_cases heq : vacant' = vacant
  · exact .inl (congrArg Answer.flag heq)
  · have hnot : vacant' = false := by
      rw [← Bool.not_eq_true]
      exact fun ht => heq (ht.trans (htwin ht).symm)
    subst hnot
    have hvacant : vacant = true := by simpa using heq
    exact .inr ⟨fun hc => heq (h hc), congrArg Answer.flag hvacant, rfl⟩

theorem SameOutcome.sameWhen_refl (o : Except Failure (Answer α)) :
    SameOutcome (Answer.SameWhen C) o o :=
  (SameOutcome.refl o).mono fun _ _ heq => .inl heq.symm

/-- Outcomes are the same if the condition holds. -/
theorem SameOutcome.eq_of_sameWhen {o o' : Except Failure (Answer α)}
    (h : SameOutcome (Answer.SameWhen C) o o') (hc : C) : o' = o :=
  (h.mono fun _ _ ha => (ha.resolve_right fun hno => hno.1 hc).symm).eq

/-- Outcomes are the same, one by one, if the condition holds. -/
theorem outcomes_eq_of_sameWhen {C : Prop} {os os' : List (Except Failure (Answer α))}
    (h : List.Forall₂ (SameOutcome (Answer.SameWhen C)) os os') (hc : C) : os' = os := by
  induction h with
  | nil => rfl
  | cons ho _ ih => rw [ho.eq_of_sameWhen hc, ih]

variable [Shown α] {c : Comparator α} {es : List (Entry α)} {vacant vacant' : Bool}
  (h : C → vacant' = vacant) (htwin : vacant' = true → vacant = true)
include h htwin

/-- Only the question whether there is anything depends on what the view says of it. -/
theorem BagQuery.sameOutcome_answer (q : BagQuery α) :
    SameOutcome (Answer.SameWhen (q = .isEmpty → C)) (q.answer c es vacant)
      (q.answer c es vacant') := by
  cases q with
  | isEmpty => exact .ok (Answer.sameWhen_flag (fun hc => h (hc rfl)) htwin)
  | _ => exact .sameWhen_refl _

theorem ElementQuery.sameOutcome_answer (q : ElementQuery α) :
    SameOutcome (Answer.SameWhen (q = .isEmpty → C)) (q.answer c es vacant)
      (q.answer c es vacant') := by
  cases q with
  | isEmpty => exact .ok (Answer.sameWhen_flag (fun hc => h (hc rfl)) htwin)
  | _ => exact .sameWhen_refl _

theorem EntryQuery.sameOutcome_answer (q : EntryQuery α) :
    SameOutcome (Answer.SameWhen (q = .isEmpty → C)) (.ok (q.answer c es vacant))
      (.ok (q.answer c es vacant')) := by
  cases q with
  | isEmpty => exact .ok (Answer.sameWhen_flag (fun hc => h (hc rfl)) htwin)
  | _ => exact .sameWhen_refl _

end

/-! ## Asking -/

/-- Nodes, comparators, the number of bags and what becomes of totals stay the same. -/
structure Registry.SameNodes (reg reg' : Registry α) : Prop where
  nodes : reg'.nodes = reg.nodes
  evaluations : reg'.evaluations = reg.evaluations
  bags : reg'.bags.size = reg.bags.size
  arithmetic : reg'.arithmetic = reg.arithmetic

theorem Registry.sameNodes_unlogged : Registry.Unlogged (SameNodes (α := α)) where
  refl _ := ⟨rfl, rfl, rfl, rfl⟩
  trans h h' := ⟨h'.nodes.trans h.nodes, h'.evaluations.trans h.evaluations, h'.bags.trans h.bags,
    h'.arithmetic.trans h.arithmetic⟩
  log _ _ := ⟨rfl, rfl, rfl, rfl⟩

/-- What is in a bag does not matter to the nodes. -/
theorem Registry.ignores_sameNodes (b : BagId) : Registry.Ignores (SameNodes (α := α)) b :=
  fun _ _ => ⟨rfl, rfl, by simp [setContents], rfl⟩

/-- Actions of which the outcome and the contents are known, and which leave the nodes alone. -/
theorem Action.matches_of_gives (hr : reg.Twins S reg') {P : β → γ → Prop} {a : Action α β}
    {a' : Action α γ} {o : Except Failure β} {o' : Except Failure γ} {k k' : BagId → Histogram α}
    (ha : a.Gives reg o k) (ha' : a'.Gives reg' o' k') (ho : SameOutcome P o o')
    (hkeep : a.Respects Registry.SameNodes) (hkeep' : a'.Respects Registry.SameNodes)
    (hk : S.Agree k k') : a.Matches S P a' reg reg' := by
  obtain ⟨reg₁, hp, -, rfl⟩ := ha
  obtain ⟨reg₁', hp', -, rfl⟩ := ha'
  have hsame := hkeep reg
  have hsame' := hkeep' reg'
  rw [hp] at hsame
  rw [hp'] at hsame'
  exact matches_of_perform hp hp' (hr.of_contents hsame.nodes hsame'.nodes hsame.bags hsame'.bags
    hsame.evaluations hsame'.evaluations hsame.arithmetic hsame'.arithmetic hk) ho

/-- A question of which the answer depends on three things, the order and the entries of a view and
whether it says that it is empty, and which takes at most one entry away. -/
theorem View.Paired.matches_of_gives (hr : reg.Twins S reg') (hs : reg.Sound) (hs' : reg'.Sound)
    {v w : View α} (h : Paired S reg reg' v w) {P : β → β → Prop} {a a' : Action α β}
    (answer : Comparator α → List (Entry α) → Bool → Except Failure β)
    (victim : Comparator α → List (Entry α) → Option (Entry α))
    (hanswer : ∀ c es, SameOutcome P (answer c es (v.vacant reg.contents))
      (answer c es (w.vacant reg'.contents)))
    (ha : v.Intact reg → a.Gives reg
      (answer v.order (v.listing reg.contents) (v.vacant reg.contents))
      (v.without reg.contents (victim v.order (v.listing reg.contents))))
    (ha' : w.Intact reg' → a'.Gives reg'
      (answer w.order (w.listing reg'.contents) (w.vacant reg'.contents))
      (w.without reg'.contents (victim w.order (w.listing reg'.contents))))
    (hb : v.Broken reg → a.Breaks reg) (hb' : w.Broken reg' → a'.Breaks reg')
    (hkeep : a.Respects Registry.SameNodes) (hkeep' : a'.Respects Registry.SameNodes) :
    a.Matches S P a' reg reg' := by
  rcases h.intact_or_broken hr hs hs' with ⟨hv, hw⟩ | ⟨hv, hw⟩
  · have hgive' := ha' hw
    rw [order_of_core h.core, h.shared.listing_eq hr.contents h.core] at hgive'
    exact Action.matches_of_gives hr (ha hv) hgive' (hanswer _ _) hkeep hkeep'
      (hr.contents.without h.core (hv.usable hs).valid (hw.usable hs').valid _)
  · exact Action.matches_of_gives hr (hb hv) (hb' hw) (.error _) hkeep hkeep' hr.contents

section

variable [Shown α] {t t' : Table α} {name : String}

theorem BagQuery.run_matches (hr : reg.Twins S reg') (hs : reg.Sound) (hs' : reg'.Sound)
    {v w : View α} (h : View.Paired S reg reg' v w) (hfind : t.find? name = some (.bag v))
    (hfind' : t'.find? name = some (.bag w)) (q : BagQuery α) :
    (q.run v).Matches S
      (Answer.SameWhen (q = .isEmpty → v.Concurs reg.contents reg'.contents w)) (q.run w)
      reg reg' := by
  have hquiet (hq : ∀ d e, q ≠ .within d e) : (q.run v).Matches S
      (Answer.SameWhen (q = .isEmpty → v.Concurs reg.contents reg'.contents w)) (q.run w)
      reg reg' := by
    have hsensible (c : Comparator α) : q.Sensible c := by
      cases q with
      | within d e => exact absurd rfl (hq d e)
      | _ => trivial
    have hkeep {t : Table α} {v : View α} (hfind : t.find? name = some (.bag v)) :
        (q.run v).Respects Registry.SameNodes := by
      refine q.run_respects Registry.sameNodes_unlogged hfind
        (fun _ => Registry.ignores_sameNodes _) fun hask => ?_
      cases q with
      | within d e => exact absurd rfl (hq d e)
      | _ => exact hask.elim
    exact h.matches_of_gives hr hs hs' q.answer q.victim
      (fun _ _ => q.sameOutcome_answer (h.vacant_eq hr hs hs') (h.vacant_of_twin hr hs hs'))
      (q.run_gives hs) (q.run_gives hs') (fun hb => q.run_breaks hs h.live.1 hb (hsensible _))
      (fun hb => q.run_breaks hs' h.live'.1 hb (hsensible _)) (hkeep hfind) (hkeep hfind')
  cases q with
  | within d e =>
    -- the order may be remembered on the way, so the nodes do not stay as they are
    refine View.scanExpr_bind_matches hr hs hs' h d e fun t t' reg₁ reg₁' hr hk hk' ht => ?_
    have hsame : t'.remaining reg₁'.contents = t.remaining reg₁.contents := by
      rw [hk, hk', ht.remaining]
    have hdrain : t.drain.Matches S (fun es es' => es' = es) t'.drain reg₁ reg₁' :=
      ⟨hr, .ok hsame⟩
    exact hdrain.map fun _ _ heq => .inl (congrArg Answer.entries heq)
  | _ => exact hquiet (by simp)

theorem ElementQuery.run_matches (hr : reg.Twins S reg') (hs : reg.Sound) (hs' : reg'.Sound)
    {u u' : ElementSet α}
    (h : View.Paired S reg reg' u.view u'.view) (hfind : t.find? name = some (.elements u))
    (hfind' : t'.find? name = some (.elements u')) (q : ElementQuery α) :
    (q.run u).Matches S
      (Answer.SameWhen (q = .isEmpty → u.view.Concurs reg.contents reg'.contents u'.view))
      (q.run u') reg reg' := by
  have hfollow := View.follow_eq_ok h.live h.shared.attached u.link
  have hfollow' := View.follow_eq_ok h.live' h.attached' u'.link
  have hkeep {t : Table α} {u : ElementSet α} (hfind : t.find? name = some (.elements u)) :
      (q.run u).Respects Registry.SameNodes :=
    q.run_respects Registry.sameNodes_unlogged hfind fun _ => Registry.ignores_sameNodes _
  exact h.matches_of_gives hr hs hs' q.answer q.victim
    (fun _ _ => q.sameOutcome_answer (h.vacant_eq hr hs hs') (h.vacant_of_twin hr hs hs'))
    (fun hv => q.run_gives hs ⟨hv, hfollow⟩) (fun hw => q.run_gives hs' ⟨hw, hfollow'⟩)
    (q.run_breaks hfollow) (q.run_breaks hfollow') (hkeep hfind) (hkeep hfind')

theorem EntryQuery.run_matches (hr : reg.Twins S reg') (hs : reg.Sound) (hs' : reg'.Sound)
    {u u' : EntrySet α} (h : View.Paired S reg reg' u.view u'.view) (q : EntryQuery α) :
    (q.run u).Matches S
      (Answer.SameWhen (q = .isEmpty → u.view.Concurs reg.contents reg'.contents u'.view))
      (q.run u') reg reg' := by
  have hfollow := View.follow_eq_ok h.live h.shared.attached .weak
  have hfollow' := View.follow_eq_ok h.live' h.attached' .weak
  exact h.matches_of_gives hr hs hs' (fun c es vacant => .ok (q.answer c es vacant))
    (fun _ _ => none)
    (fun _ _ => q.sameOutcome_answer (h.vacant_eq hr hs hs') (h.vacant_of_twin hr hs hs'))
    (fun hv => (q.run_answers hs ⟨hv, hfollow⟩).gives)
    (fun hw => (q.run_answers hs' ⟨hw, hfollow'⟩).gives) (q.run_breaks hfollow)
    (q.run_breaks hfollow') (q.run_respects Registry.sameNodes_unlogged u)
    (q.run_respects Registry.sameNodes_unlogged u')

end

end OrderedBag
