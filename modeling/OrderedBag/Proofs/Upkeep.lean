import OrderedBag.Proofs.Building
import OrderedBag.Proofs.Lookup
import OrderedBag.Session.Making

/-!
# Every operation makes moves only

Whatever an operation does to a registry is a sequence of moves, also when it fails on the way, and
what it hands out exists. The only demand on the caller is that counts are counts: from one to
`maxCount`.

* `Source.insert_orderly`, … — changing a source
* `View.take_orderly`, … — asking a view
* `ViewStep.run_ends`, `ElementStep.run_ends` — which views and sets are made, and that they may get
  a node
-/

namespace OrderedBag

open OrderedBag.Action

variable {α β : Type}

/-- The action makes moves only. -/
abbrev Action.Orderly (a : Action α β) (reg : Registry α) : Prop :=
  a.Ends reg fun _ _ => True

namespace Action

variable {γ : Type} {reg : Registry α} {a : Action α β} {f : β → Action α γ}
  {R : γ → Registry α → Prop}

theorem Answers.orderly {o : Except Failure β} (h : a.Answers reg o) : a.Orderly reg :=
  h.ends fun _ _ _ _ => trivial

/-- What follows a part that only reads, and may fail. -/
theorem Ends.read (ha : (a.perform reg).2 = reg)
    (hf : ∀ b, (a.perform reg).1 = .ok b → (f b).Ends reg R) : (a >>= f).Ends reg R := by
  cases ho : (a.perform reg).1 with
  | error e =>
    unfold Ends
    rw [perform_bind_error (Prod.ext ho ha)]
    exact ⟨.refl, by simp⟩
  | ok b => exact .after (Prod.ext ho ha) (hf b ho)

theorem Ends.follow {link : Link} {v : View α} {f : Unit → Action α γ} (hf : (f ()).Ends reg R) :
    (Action.follow link v >>= f).Ends reg R :=
  .read (by rw [perform_follow]) fun _ _ => hf

theorem Ends.reading {g : Registry α → Except Failure β}
    (hf : ∀ b, g reg = .ok b → (f b).Ends reg R) : (Action.reading g >>= f).Ends reg R :=
  .read (by rw [perform_reading]) fun b hb => hf b (by rwa [perform_reading] at hb)

/-- What follows a reference to a view. -/
theorem Ends.reference {link : Link} {v : View α} {f : View α → Action α γ}
    (hf : (f v).Ends reg R) : ((do Action.follow link v; return v) >>= f).Ends reg R := by
  have hlink := perform_follow link v reg
  cases hfollow : reg.follow link v with
  | error e =>
    rw [hfollow] at hlink
    unfold Ends
    rw [perform_bind_error (perform_bind_error hlink)]
    exact ⟨.refl, by simp⟩
  | ok _ =>
    rw [hfollow] at hlink
    exact .after (perform_bind_ok hlink) hf

/-- An orderly action after which something is answered. -/
theorem Ends.answer {g : β → γ} (h : a.Orderly reg) :
    (do return g (← a) : Action α γ).Orderly reg :=
  h.bind fun _ _ _ _ => ends_pure trivial

end Action

/-! ## Changing a source -/

namespace Source

variable {reg : Registry α} {s : Source α}

theorem insert_orderly (hs : reg.Sound) (hh : reg.Houses (.source s)) (x : α) {n : Nat}
    (hn : 1 ≤ n) : (s.insert x n).Orderly reg := by
  unfold Action.Orderly Action.Ends
  rw [perform_insert hs.wrapping]
  cases hi : (reg.contents s.bag).insert? s.comparator x n with
  | none => exact ⟨.refl, fun _ _ => trivial⟩
  | some h =>
    have hvalid := (hs.stocked.stocks s hh).2.insert? hn hi
    exact ⟨.single (.stored hh hvalid), fun _ _ => trivial⟩

theorem extend_orderly (hs : reg.Sound) (hh : reg.Houses (.source s)) (xs : List α) :
    (s.extend xs).Orderly reg := by
  induction xs generalizing reg with
  | nil => exact ends_pure trivial
  | cons x xs ih =>
    exact (insert_orderly hs hh x (Nat.le_refl 1)).bind fun _ _ hm _ =>
      ih (hs.moves hm) (hh.moves hm)

theorem insertTimes_orderly (hs : reg.Sound) (hh : reg.Houses (.source s)) (x : α) (n : Nat) :
    (s.insertTimes x n).Orderly reg := by
  induction n generalizing reg with
  | zero => exact ends_pure trivial
  | succ n ih =>
    exact (insert_orderly hs hh x (Nat.le_refl 1)).bind fun _ _ hm _ =>
      ih (hs.moves hm) (hh.moves hm)

theorem absorbUpTo_orderly (hs : reg.Sound) (hh : reg.Houses (.source s)) (n : Nat)
    (t : Traversal α) : (s.absorbUpTo n t).Orderly reg := by
  induction n generalizing reg t with
  | zero => exact ends_pure trivial
  | succ n ih =>
    unfold absorbUpTo
    refine .after (perform_get reg) ?_
    rcases t.next reg.contents with ⟨_ | e, t'⟩
    · exact ends_pure trivial
    · exact (insertTimes_orderly hs hh e.element e.count).bind fun _ _ hm _ =>
        ih (hs.moves hm) (hh.moves hm) t'

theorem absorb_orderly (hs : reg.Sound) (hh : reg.Houses (.source s)) (t : Traversal α) :
    (s.absorb t).Orderly reg :=
  .after (perform_get reg) (absorbUpTo_orderly hs hh _ t)

theorem insertEntries_orderly (hs : reg.Sound) (hh : reg.Houses (.source s)) {es : List (Entry α)}
    (hes : ∀ e ∈ es, 1 ≤ e.count) : (s.insertEntries es).Orderly reg := by
  induction es generalizing reg with
  | nil => exact ends_pure trivial
  | cons e es ih =>
    obtain ⟨he, hes⟩ := List.forall_mem_cons.mp hes
    exact (insert_orderly hs hh e.element he).bind fun _ _ hm _ =>
      ih (hs.moves hm) (hh.moves hm) hes

theorem remove_orderly (hs : reg.Sound) (hh : reg.Houses (.source s)) (x : α) :
    (s.remove x).Orderly reg := by
  unfold Action.Orderly Action.Ends
  rw [perform_remove hs.wrapping]
  exact ⟨.single (.stored hh ((hs.stocked.stocks s hh).2.removeOne x)), fun _ _ => trivial⟩

theorem removeAll_orderly (hs : reg.Sound) (hh : reg.Houses (.source s)) (x : α) :
    (s.removeAll x).Orderly reg := by
  unfold Action.Orderly Action.Ends
  rw [perform_removeAll hs.wrapping]
  exact ⟨.single (.stored hh ((hs.stocked.stocks s hh).2.erase x)), fun _ _ => trivial⟩

theorem clear_orderly (hh : reg.Houses (.source s)) : s.clear.Orderly reg :=
  ends_modify (.single (.stored hh (Histogram.valid_empty s.comparator))) trivial

end Source

/-! ## Views -/

namespace View

variable {reg : Registry α} {v : View α}

theorem count_orderly (v : View α) (reg : Registry α) (x : α) : (v.count x).Orderly reg := by
  have hsource (s : Source α) (reg : Registry α) : (s.count x).Orderly reg := by
    have hrange : (s.countInRange x).Orderly reg := by
      refine (source_narrow_answers s _ reg).orderly.bind fun tail reg' _ _ => ?_
      refine .reading fun e? _ => ?_
      cases e? <;> exact ends_pure trivial
    unfold Source.count
    cases s.access with
    | indexed => exact .after (perform_get reg) (ends_pure trivial)
    | sequential | copying | detached => exact hrange
  induction v with
  | source s => exact hsource s reg
  | range n s r =>
    unfold count
    split
    · exact hsource s reg
    · exact ends_pure trivial
  | descending n link f ih => exact .follow ih

theorem contains_orderly (v : View α) (reg : Registry α) (x : α) : (v.contains x).Orderly reg := by
  have hcount := (count_orderly v reg x).answer (g := fun n => decide (0 < n))
  cases v with
  | source s =>
    show (s.contains x).Orderly reg
    unfold Source.contains
    cases s.access with
    | indexed => exact .after (perform_get reg) (ends_pure trivial)
    | sequential | copying | detached => exact hcount
  | range n s r => exact hcount
  | descending n link f => exact hcount

theorem take_orderly (hs : reg.Sound) (hh : reg.Houses v) (x : α) : (v.take x).Orderly reg := by
  induction v with
  | source s => exact (Source.take_gives hs hh x).ends fun _ _ _ _ _ => trivial
  | range n s r =>
    unfold take
    split
    · exact (Source.take_gives hs (hh.root hs.wellFormed) x).ends fun _ _ _ _ _ => trivial
    · exact ends_pure trivial
  | descending n link f ih => exact .follow (ih (hh.base hs.wellFormed rfl))

theorem poll_orderly (hs : reg.Sound) (hh : reg.Houses v) (d : Direction) :
    (v.poll d).Orderly reg := by
  induction v generalizing d with
  | source s => exact (Source.poll_gives hs hh d).ends fun _ _ _ _ _ => trivial
  | range n s r =>
    refine .reading fun e? _ => ?_
    cases e? with
    | none => exact ends_pure trivial
    | some e => exact take_orderly hs hh e.element
  | descending n link f ih => exact .follow (ih (hh.base hs.wellFormed rfl) d.flip)

theorem comparator_orderly (hs : reg.Sound) (hh : reg.Houses v) : v.comparator.Orderly reg := by
  rcases comparator_spec hs hh with h | ⟨-, h⟩ <;> exact h.ends fun _ _ _ _ _ => trivial

theorem scanExpr_orderly (hs : reg.Sound) (hh : reg.Houses v) (d : Direction)
    (q : IntervalExpr α) : (v.scanExpr d q).Orderly reg := by
  refine (comparator_orderly hs hh).bind fun c reg' _ _ => ?_
  have hrequire : (q.require c).Orderly reg' := by
    unfold IntervalExpr.require
    cases q.eval c with
    | some r => exact ends_pure trivial
    | none => exact (ends_record _).bind fun _ _ _ _ => ends_throw _
  exact hrequire.bind fun r reg'' _ _ => ends_reading _ fun _ _ => trivial

/-- The view behind a descending view exists, if the reference can be followed. -/
theorem live_of_follow (hs : reg.Sound) {n : Option NodeId} {link : Link} {f : View α}
    (hl : reg.Live (descending n link f)) (hfollow : reg.follow link f = .ok ()) : reg.Live f := by
  cases link with
  | strong => exact hl.forward hs
  | weak =>
    rw [Registry.follow_weak] at hfollow
    split at hfollow
    next hup =>
      rw [Registry.canUpgrade, Bool.and_eq_true] at hup
      exact ⟨hl.1.base hs.wellFormed rfl, hup.1⟩
    next => cases hfollow

/-- If narrowing succeeds, the source can be reached and there is an interval. -/
theorem narrowed_of_ok {x : Except Failure (Interval α)} {w : View α}
    (h : (do reg.reach v; let q ← x; v.attached; return v.narrowed q) = .ok w) :
    reg.canReach v = true ∧ v.attached = .ok () ∧ ∃ q, x = .ok q ∧ w = v.narrowed q := by
  unfold Registry.reach at h
  cases hreach : reg.canReach v with
  | false =>
    rw [hreach] at h
    cases h
  | true =>
    rw [if_pos hreach] at h
    cases x with
    | error e => cases h
    | ok q =>
      cases hatt : v.attached with
      | error e =>
        rw [hatt] at h
        cases h
      | ok _ =>
        rw [hatt] at h
        exact ⟨rfl, rfl, q, rfl, (Except.ok.inj h).symm⟩

theorem narrow_ends (hs : reg.Sound) (hl : reg.Live v) (q : Interval α) :
    (v.narrow q).Ends reg fun w reg' => reg'.Supports w ∧ w = v.narrowed q := by
  refine (narrow_answers v q reg).ends fun w reg' ho hm => ?_
  have ho : (do reg.reach v; let q ← (.ok q); v.attached; return v.narrowed q) = .ok w := ho
  obtain ⟨hreach, hattached, q', ⟨⟩, rfl⟩ := narrowed_of_ok ho
  exact ⟨(hl.supports_narrowed hs hreach hattached q).moves hm, rfl⟩

theorem demand_between {c : Comparator α} {lo hi : Endpoint α} {q : Interval α}
    (h : Interval.demand (Interval.between? c lo hi) = .ok q) : q = ⟨some lo, some hi⟩ := by
  unfold Interval.between? at h
  split at h
  · cases h
  · exact (Except.ok.inj h).symm

theorem sub_ends (hs : reg.Sound) (hl : reg.Live v) (lo hi : Endpoint α) :
    (v.sub lo hi).Ends reg fun w reg' =>
      reg'.Supports w ∧ w = v.narrowed ⟨some lo, some hi⟩ := by
  refine (sub_answers v lo hi reg).ends fun w reg' ho hm => ?_
  obtain ⟨hreach, hattached, q, hq, rfl⟩ := narrowed_of_ok ho
  obtain rfl := demand_between hq
  exact ⟨(hl.supports_narrowed hs hreach hattached _).moves hm, rfl⟩

/-- `w` is what reversing `v` answers. -/
def Reverses (v w : View α) : Prop :=
  (∃ n link, v = descending n link w) ∨
    v.isDescending = false ∧ ∃ j, w = descending j .weak v

theorem reversed_ends (hs : reg.Sound) (hl : reg.Live v) :
    v.reversed.Ends reg fun w reg' => reg'.Live w ∧ v.Reverses w := by
  -- a descending view is left, any other one gets or has a descending view
  cases hup : v.isDescending with
  | false =>
    obtain ⟨j, reg', hperform, hm, -, hd⟩ := reversed_up hs hl hup
    unfold Ends
    rw [hperform]
    refine ⟨hm, ?_⟩
    rintro _ ⟨⟩
    exact ⟨hd, .inr ⟨hup, j, rfl⟩⟩
  | true =>
    cases v with
    | source s => simp [isDescending] at hup
    | range n s r => simp [isDescending] at hup
    | descending n link f =>
      unfold Ends
      rw [reversed_down]
      refine ⟨.refl, ?_⟩
      intro w hw
      cases hfollow : reg.follow link f with
      | error e =>
        rw [hfollow] at hw
        cases hw
      | ok _ =>
        rw [hfollow] at hw
        obtain rfl : f = w := Except.ok.inj hw
        exact ⟨live_of_follow hs hl hfollow, .inl ⟨n, link, rfl⟩⟩

theorem reachItself_ends (hl : reg.Live v) :
    v.reachItself.Ends reg fun w reg' => reg'.Live w ∧ w = v := by
  cases v with
  | source s =>
    show s.reachItself.Ends reg _
    unfold Source.reachItself
    split
    · exact ends_throw _
    · exact ends_pure ⟨hl, rfl⟩
  | range n s r => exact ends_pure ⟨hl, rfl⟩
  | descending n link f => exact ends_pure ⟨hl, rfl⟩

end View

/-- `w` is the view that a step makes from `v`. -/
def ViewStep.Makes (v w : View α) : ViewStep α → Prop
  | head hi => w = v.narrowed (.upTo hi)
  | tail lo => w = v.narrowed (.downTo lo)
  | sub lo hi => w = v.narrowed ⟨some lo, some hi⟩
  | reversed => v.Reverses w
  | itself => w = v

theorem ViewStep.run_ends {reg : Registry α} {v : View α} (hs : reg.Sound) (hl : reg.Live v)
    (st : ViewStep α) :
    (st.run v).Ends reg fun w reg' => reg'.Supports w ∧ st.Makes v w := by
  cases st with
  | head hi => exact View.narrow_ends hs hl _
  | tail lo => exact View.narrow_ends hs hl _
  | sub lo hi => exact View.sub_ends hs hl lo hi
  | reversed => exact (View.reversed_ends hs hl).mono fun _ _ h => ⟨h.1.supports, h.2⟩
  | itself => exact (View.reachItself_ends hl).mono fun _ _ h => ⟨h.1.supports, h.2⟩

/-! ## Sets -/

/-- `t` is the set that a step makes from `s`. -/
def ElementStep.Makes (s t : ElementSet α) : ElementStep α → Prop
  | head hi => t = ⟨.strong, s.view.narrowed (.upTo hi)⟩
  | tail lo => t = ⟨.strong, s.view.narrowed (.downTo lo)⟩
  | sub lo hi => t = ⟨.strong, s.view.narrowed ⟨some lo, some hi⟩⟩
  | descending => t = ⟨.strong, .descending none .strong s.view⟩

namespace ElementSet

variable {reg : Registry α} {s : ElementSet α} {R : β → Registry α → Prop}
  {f : View α → Action α β}

theorem bag_bind (hf : (f s.view).Ends reg R) : (s.bag >>= f).Ends reg R :=
  .reference hf

theorem keeping_ends {v : View α} (hv : reg.Supports v) :
    (keeping v).Ends reg fun t reg' => reg'.Supports t.view ∧ t = ⟨.strong, v⟩ :=
  (ends_record _).bind fun _ _ hm _ => ends_pure ⟨hv.moves hm, rfl⟩

theorem extreme?_orderly (s : ElementSet α) (reg : Registry α) (d : Direction) :
    (s.extreme? d).Orderly reg :=
  bag_bind (ends_reading _ fun _ _ => trivial)

theorem scan_orderly (s : ElementSet α) (reg : Registry α) : s.scan.Orderly reg :=
  bag_bind (ends_reading _ fun _ _ => trivial)

theorem lastBefore_orderly (hs : reg.Sound) (hl : reg.Live s.view) (hi : Endpoint α) :
    (s.lastBefore hi).Orderly reg :=
  bag_bind ((View.narrow_ends hs hl _).bind fun _ _ _ _ => .reading fun _ _ => ends_pure trivial)

theorem firstAfter_orderly (hs : reg.Sound) (hl : reg.Live s.view) (lo : Endpoint α) :
    (s.firstAfter lo).Orderly reg :=
  bag_bind ((View.narrow_ends hs hl _).bind fun _ _ _ _ => .reading fun _ _ => ends_pure trivial)

theorem descending_ends (hl : reg.Live s.view) :
    s.descending.Ends reg fun t reg' =>
      reg'.Supports t.view ∧ t = ⟨.strong, .descending none .strong s.view⟩ :=
  bag_bind ((ends_record _).bind fun _ _ hm _ =>
    keeping_ends (v := .descending none .strong s.view) (hl.moves hm).supports)

theorem scanTowards_orderly (hl : reg.Live s.view) (d : Direction) :
    (s.scanTowards d).Orderly reg := by
  cases d with
  | ascending => exact scan_orderly s reg
  | descending => exact (descending_ends hl).bind fun t reg' _ _ => scan_orderly t reg'

end ElementSet

theorem EntrySet.bag_bind {reg : Registry α} {s : EntrySet α} {R : β → Registry α → Prop}
    {f : View α → Action α β} (hf : (f s.view).Ends reg R) : (s.bag >>= f).Ends reg R :=
  .reference hf

theorem EntrySet.scan_orderly (s : EntrySet α) (reg : Registry α) : s.scan.Orderly reg :=
  bag_bind (ends_reading _ fun _ _ => trivial)

theorem ElementStep.run_ends {reg : Registry α} {s : ElementSet α} (hs : reg.Sound)
    (hl : reg.Live s.view) (st : ElementStep α) :
    (st.run s).Ends reg fun t reg' => reg'.Supports t.view ∧ st.Makes s t := by
  have hkeep {a : View α → Action α (View α)} {v : View α}
      (ha : (a s.view).Ends reg fun w reg' => reg'.Supports w ∧ w = v) :
      (do ElementSet.keeping (← a (← s.bag)) : Action α (ElementSet α)).Ends reg fun t reg' =>
        reg'.Supports t.view ∧ t = ⟨.strong, v⟩ := by
    refine ElementSet.bag_bind (ha.bind fun w reg' _ hw => ?_)
    obtain ⟨hsup, rfl⟩ : reg'.Supports w ∧ w = v := hw
    exact ElementSet.keeping_ends hsup
  cases st with
  | head hi => exact hkeep (a := fun v => v.head hi) (View.narrow_ends hs hl _)
  | tail lo => exact hkeep (a := fun v => v.tail lo) (View.narrow_ends hs hl _)
  | sub lo hi => exact hkeep (a := fun v => v.sub lo hi) (View.sub_ends hs hl lo hi)
  | descending => exact ElementSet.descending_ends hl

end OrderedBag
