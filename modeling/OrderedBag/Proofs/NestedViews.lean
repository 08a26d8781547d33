import OrderedBag.Proofs.Sessions

/-!
# What nested views mean

A view may be made from a source by any sequence of steps, at any earlier moment. It shows the
entries which the source has now, and of those the ones that satisfy every bound of the sequence,
each read in the order of the view it was asked on. They come in the order of the source if the
sequence reverses an even number of times, and in the reverse order if it reverses an odd number of
times.

* `Session.Obtained` — how a view came about, from a source and by which steps
* `Session.Obtained.spec` — the source, the direction and the elements of such a view
* `Session.scan_of_obtained` — what it yields, visited in either direction
-/

namespace OrderedBag

open OrderedBag.Action

variable {α : Type}

/-! ## Reading a sequence of steps -/

/-- Upwards after an even number of turns, downwards after an odd one. -/
def Direction.ofParity (n : Nat) : Direction :=
  if n % 2 = 0 then .ascending else .descending

theorem Direction.ofParity_succ (n : Nat) : ofParity (n + 1) = (ofParity n).flip := by
  unfold ofParity
  rcases Nat.mod_two_eq_zero_or_one n with h | h
  · have hsucc : (n + 1) % 2 ≠ 0 := by omega
    rw [if_pos h, if_neg hsucc]
    rfl
  · have hsucc : (n + 1) % 2 = 0 := by omega
    have hn : n % 2 ≠ 0 := by omega
    rw [if_neg hn, if_pos hsucc]
    rfl

theorem Comparator.towards_flip (c : Comparator α) (d : Direction) :
    c.towards d.flip = (c.towards d).reversed := by
  cases d with
  | ascending => rfl
  | descending => exact (reversed_reversed c).symm

theorem Comparator.reversed_towards (c : Comparator α) (d : Direction) :
    c.reversed.towards d = (c.towards d).reversed := by
  cases d <;> rfl

theorem Comparator.isEq_towards (c : Comparator α) (d : Direction) (a b : α) :
    ((c.towards d).compare a b).isEq = (c.compare a b).isEq := by
  cases d with
  | ascending => rfl
  | descending =>
    rw [towards, compare_reversed]
    cases c.compare a b <;> rfl

namespace ViewStep

/-- The interval that a step asks for. -/
def interval : ViewStep α → Interval α
  | head hi => .upTo hi
  | tail lo => .downTo lo
  | sub lo hi => ⟨some lo, some hi⟩
  | reversed | itself => .all

/-- Whether a step turns the order around. -/
def turns : ViewStep α → Bool
  | reversed => true
  | head _ | tail _ | sub _ _ | itself => false

/-- The order of the view that a step makes, given the order of the view it was asked on. -/
def turn (c : Comparator α) (st : ViewStep α) : Comparator α :=
  if st.turns then c.reversed else c

/-- Whether an element satisfies every bound of a sequence of steps. -/
def satisfies : Comparator α → List (ViewStep α) → α → Bool
  | _, [], _ => true
  | c, st :: path, x => st.interval.contains c x && satisfies (st.turn c) path x

/-- The direction in which a sequence of steps leaves the entries. -/
def heading (path : List (ViewStep α)) : Direction :=
  .ofParity (path.countP turns)

theorem heading_cons (st : ViewStep α) (path : List (ViewStep α)) :
    heading (st :: path) = if st.turns then (heading path).flip else heading path := by
  unfold heading
  rw [List.countP_cons]
  cases st.turns with
  | false => rfl
  | true => exact Direction.ofParity_succ _

theorem heading_concat (path : List (ViewStep α)) (st : ViewStep α) :
    heading (path ++ [st]) = if st.turns then (heading path).flip else heading path := by
  unfold heading
  rw [List.countP_append, List.countP_singleton]
  cases st.turns with
  | false => rfl
  | true => exact Direction.ofParity_succ _

/-- The order which a sequence of steps leaves. -/
theorem foldl_turn (c : Comparator α) (path : List (ViewStep α)) :
    path.foldl turn c = c.towards (heading path) := by
  induction path generalizing c with
  | nil => rfl
  | cons st path ih =>
    rw [List.foldl_cons, ih, heading_cons, turn]
    cases st.turns with
    | false => rfl
    | true => exact (c.reversed_towards _).trans (c.towards_flip _).symm

/-- Further steps are read in the order which the steps before them leave. -/
theorem satisfies_append (c : Comparator α) (path path' : List (ViewStep α)) (x : α) :
    satisfies c (path ++ path') x =
      (satisfies c path x && satisfies (c.towards (heading path)) path' x) := by
  rw [← foldl_turn]
  induction path generalizing c with
  | nil => simp [satisfies]
  | cons st path ih =>
    rw [List.cons_append, satisfies, ih, satisfies, List.foldl_cons, Bool.and_assoc]

theorem satisfies_concat (c : Comparator α) (path : List (ViewStep α)) (st : ViewStep α) (x : α) :
    satisfies c (path ++ [st]) x =
      (satisfies c path x && st.interval.contains (c.towards (heading path)) x) := by
  rw [satisfies_append, satisfies, satisfies, Bool.and_true]

/-- The step narrows a view. -/
def Narrows : ViewStep α → Prop
  | head _ | tail _ | sub _ _ => True
  | reversed | itself => False

end ViewStep

/-! ## Views made by steps -/

namespace View

/-- The view shows a range of its source, maybe backwards. -/
def IsRange : View α → Prop
  | source _ => False
  | range _ _ _ => True
  | descending _ _ f => f.IsRange

theorem isRange_narrowed (v : View α) (q : Interval α) : (v.narrowed q).IsRange := by
  induction v generalizing q with
  | source s => trivial
  | range n s r => trivial
  | descending n link f ih => exact ih q.reverse

theorem isRange_enroll (reg : Registry α) (v : View α) :
    (reg.enroll v).1.IsRange ↔ v.IsRange := by
  induction v with
  | source s => exact Iff.rfl
  | range n s r => cases n <;> exact Iff.rfl
  | descending n link f ih =>
    cases n with
    | some i => exact Iff.rfl
    | none => exact ih

/-- A range does not look at a running total. -/
theorem Miscounts.not_isRange {contents : BagId → Histogram α} {v : View α}
    (h : v.Miscounts contents) : ¬ v.IsRange := by
  induction v with
  | source s => exact id
  | range n s r => exact h.elim
  | descending n link f ih => exact ih h

/-- What a view means: the source behind it, the direction it faces, the elements it admits, and
whether it is a range. -/
structure Means (v : View α) (b : Source α) (path : List (ViewStep α)) : Prop where
  root : v.root = b
  facing : v.facing = ViewStep.heading path
  admits : ∀ x, v.admits x = ViewStep.satisfies b.comparator path x
  ranged : v.IsRange ↔ ∃ st ∈ path, st.Narrows

/-- A source means itself. -/
theorem means_source (b : Source α) : (source b).Means b [] where
  root := rfl
  facing := rfl
  admits _ := rfl
  ranged := by simp [IsRange]

/-- A view is flat if it shows a descending view never backwards. -/
def Flat : View α → Prop
  | source _ | range _ _ _ => True
  | descending _ _ f => f.isDescending = false

theorem narrowed_isDescending {v : View α} (h : v.isDescending = false) (q : Interval α) :
    (v.narrowed q).isDescending = false := by
  cases v with
  | source s => rfl
  | range n s r => rfl
  | descending n link f => simp [isDescending] at h

theorem Flat.narrowed {v : View α} (h : v.Flat) (q : Interval α) : (v.narrowed q).Flat := by
  cases v with
  | source s => trivial
  | range n s r => trivial
  | descending n link f => exact narrowed_isDescending h q.reverse

theorem enroll_isDescending (reg : Registry α) (v : View α) :
    (reg.enroll v).1.isDescending = v.isDescending := by
  cases v with
  | source s => rfl
  | range n s r => cases n <;> rfl
  | descending n link f => cases n <;> rfl

theorem Flat.enroll {v : View α} (h : v.Flat) (reg : Registry α) : (reg.enroll v).1.Flat := by
  cases v with
  | source s => trivial
  | range n s r => cases n <;> trivial
  | descending n link f =>
    cases n with
    | some i => exact h
    | none => exact (enroll_isDescending reg f).trans h

/-- A step leads from flat views to flat views. -/
theorem Flat.step {v w : View α} (h : v.Flat) {st : ViewStep α} (hw : st.Makes v w) : w.Flat := by
  cases st with
  | head hi => exact hw ▸ h.narrowed _
  | tail lo => exact hw ▸ h.narrowed _
  | sub lo hi => exact hw ▸ h.narrowed _
  | itself => exact hw ▸ h
  | reversed =>
    rcases hw with ⟨n, link, rfl⟩ | ⟨hup, j, rfl⟩
    · -- a view behind a descending view is flat because it is not descending itself
      cases w with
      | descending m link' f => simp [Flat, isDescending] at h
      | source s => trivial
      | range m s r => trivial
    · exact hup

/-- A descending view means what the view behind it means, turned around. -/
theorem Means.descending {v : View α} {b : Source α} {path : List (ViewStep α)}
    (h : v.Means b path) (n : Option NodeId) (link : Link) :
    (View.descending n link v).Means b (path ++ [.reversed]) := by
  refine ⟨h.root, ?_, fun x => ?_, ?_⟩
  · rw [ViewStep.heading_concat, ← h.facing]
    rfl
  · rw [ViewStep.satisfies_concat, ViewStep.interval, Interval.contains_all, Bool.and_true,
      ← h.admits]
    rfl
  · show v.IsRange ↔ _
    simpa [ViewStep.Narrows, or_and_right, exists_or] using h.ranged

/-- What the steps before mean, and what the last step asks for, the view means that it makes. -/
theorem Means.step {v w : View α} {b : Source α} {path : List (ViewStep α)} (h : v.Means b path)
    {st : ViewStep α} (hw : st.Makes v w) : w.Means b (path ++ [st]) := by
  have horder : v.order = b.comparator.towards (ViewStep.heading path) := by
    rw [order_eq, h.root, h.facing]
  have hnarrow {q : Interval α} (hq : st.interval = q) (hst : st.Narrows)
      (hturns : st.turns = false) : (v.narrowed q).Means b (path ++ [st]) := by
    refine ⟨(root_narrowed v q).trans h.root, ?_, fun x => ?_, ?_⟩
    · rw [facing_narrowed, h.facing, ViewStep.heading_concat, hturns]
      rfl
    · rw [admits_narrowed, h.admits, ViewStep.satisfies_concat, horder, hq]
    · exact iff_of_true (isRange_narrowed v q) ⟨st, by simp, hst⟩
  have hall (hst : st.interval = .all) (x : α) :
      v.admits x = ViewStep.satisfies b.comparator (path ++ [st]) x := by
    rw [ViewStep.satisfies_concat, hst, Interval.contains_all, Bool.and_true, h.admits]
  have hranged (hst : ¬ st.Narrows) : v.IsRange ↔ ∃ st' ∈ path ++ [st], st'.Narrows := by
    simpa [hst, or_and_right, exists_or] using h.ranged
  cases st with
  | head hi => exact hw ▸ hnarrow rfl trivial rfl
  | tail lo => exact hw ▸ hnarrow rfl trivial rfl
  | sub lo hi => exact hw ▸ hnarrow rfl trivial rfl
  | itself =>
    obtain rfl : w = v := hw
    exact ⟨h.root, h.facing.trans (ViewStep.heading_concat path .itself).symm, hall rfl,
      hranged id⟩
  | reversed =>
    rcases hw with ⟨n, link, rfl⟩ | ⟨-, j, rfl⟩
    · have hheading := ViewStep.heading_concat path .reversed
      refine ⟨h.root, ?_, hall rfl, hranged id⟩
      rw [hheading, ← h.facing]
      exact (Direction.flip_flip w.facing).symm
    · exact h.descending j .weak

theorem Means.enroll {v : View α} {b : Source α} {path : List (ViewStep α)} (h : v.Means b path)
    (reg : Registry α) : (reg.enroll v).1.Means b path :=
  ⟨(Registry.root_enroll reg v).trans h.root, (Registry.facing_enroll reg v).trans h.facing,
    fun x => by rw [Registry.admits_enroll, h.admits], (isRange_enroll reg v).trans h.ranged⟩

/-- A flat view can be used unless it is the descending view of a view that is gone. -/
theorem Flat.canReach {v : View α} (h : v.Flat) {reg : Registry α}
    (hv : ∀ n f, v = descending n .weak f → reg.canUpgrade f = true) : reg.canReach v = true := by
  cases v with
  | source s => rfl
  | range n s r => rfl
  | descending n link f =>
    have hf : reg.canReach f = true := by
      cases f with
      | source s => rfl
      | range m s r => rfl
      | descending m link' f' => simp [Flat, isDescending] at h
    cases link with
    | strong => exact hf
    | weak => rw [Registry.canReach, hv n f rfl, hf]; rfl

end View

/-! ## Views obtained in a run -/

/-- Asked again and again, a traversal yields these entries one by one, and nothing after them. -/
def Traversal.Yields (contents : BagId → Histogram α) (t : Traversal α) (es : List (Entry α)) :
    Prop :=
  ∀ n, t.nexts contents n = (es.map some ++ List.replicate n none).take n

namespace Session

variable [Ord α] [Std.TransOrd α] [Shown α]

/-- A view was made from the source `b` by a sequence of steps, each asked of a name that stood for
the view which the steps before had made, with any commands before and in between. -/
inductive Obtained (b : Source α) : Session α → View α → List (ViewStep α) → Prop
  /-- A reachable session has a name for the source. -/
  | root {s : Session α} {name : String} (hs : s.Reachable)
      (hname : s.table.find? name = some (.bag (.source b))) : Obtained b s (.source b) []
  /-- A further step succeeds. -/
  | step {s : Session α} {v w : View α} {path : List (ViewStep α)} {st : ViewStep α}
      {name new : String} {watched : List String} (h : Obtained b s v path)
      (hname : s.table.find? name = some (.bag v))
      (hdone : (s.step watched (.bind new (.view name st))).1.outcome = .ok .done)
      (hnew : (s.step watched (.bind new (.view name st))).2.table.find? new = some (.bag w)) :
      Obtained b (s.step watched (.bind new (.view name st))).2 w (path ++ [st])
  /-- Anything else happens. -/
  | later {s : Session α} {v : View α} {path : List (ViewStep α)} {c : Command α}
      (h : Obtained b s v path) (hc : c.Valid) (watched : List String) :
      Obtained b (s.step watched c).2 v path

variable {b : Source α} {s : Session α} {v : View α} {path : List (ViewStep α)}

theorem Obtained.reachable (h : Obtained b s v path) : s.Reachable := by
  induction h with
  | root hs _ => exact hs
  | step _ _ _ _ ih => exact ih.next (c := .bind _ (.view _ _)) trivial _
  | later _ hc watched ih => exact ih.next hc watched

/-- A view that was obtained is registered, and means what its steps say. -/
theorem Obtained.spec (h : Obtained b s v path) :
    s.registry.Houses v ∧ v.Flat ∧ v.Means b path := by
  induction h with
  | root hs hname => exact ⟨(hs.sound.live.find? hname).1, trivial, View.means_source b⟩
  | later h hc watched ih =>
    obtain ⟨hhouses, hspec⟩ := ih
    exact ⟨hhouses.grow (h.reachable.sound.grows hc watched), hspec⟩
  | @step s v w path st name new watched h hname hdone hnew ih =>
    -- the name stands for what the step makes, once that has a node
    obtain ⟨-, hflat, hmeans⟩ := ih
    have hs := h.reachable.sound
    obtain ⟨u, reg, -, -, hmakes, -, htable⟩ := view_of_outcome hs hname hdone
    have hhouses := ((hs.step (c := .bind new (.view name st)) trivial watched).live.find? hnew).1
    rw [htable, Table.find?_bind_self] at hnew
    obtain rfl : (reg.enroll u).1 = w := Handle.bag.inj (Option.some.inj hnew)
    exact ⟨hhouses, (hflat.step hmakes).enroll reg, (hmeans.step hmakes).enroll reg⟩

/-- A view obtained from a source by steps shows the entries that the source has now and that
satisfy every bound of the steps, in the order of the source if the steps reverse it an even number
of times, and backwards otherwise. Visited downwards, it yields the reverse of that list. -/
theorem scan_of_obtained (h : Obtained b s v path)
    (hv : ∀ n f, v = .descending n .weak f → s.registry.canUpgrade f = true) (d : Direction) :
    ∃ t, v.scan s.registry d = .ok t ∧
      t.Yields s.registry.contents (d.orient ((ViewStep.heading path).orient
        ((s.registry.contents b.bag).entries.filter fun e =>
          ViewStep.satisfies b.comparator path e.element))) := by
  obtain ⟨hhouses, hflat, hmeans⟩ := h.spec
  have hu := h.reachable.sound.registry.usable hhouses (hflat.canReach hv)
  obtain ⟨t, hscan, hfits, hrem⟩ := View.scan_spec hu d
  refine ⟨t, hscan, fun n => ?_⟩
  rw [Traversal.nexts_eq hfits, hrem, View.listing_eq, hmeans.root, hmeans.facing]
  simp only [hmeans.admits]

/-- A session with a source of three numbers. -/
def threeNumbers : Session Int :=
  ((empty .wrapping).step [] (.bind "s" (.ofElements [1, 3, 5]))).2

/-- The same numbers backwards. -/
def threeReversed : Session Int :=
  (threeNumbers.step [] (.bind "d" (.view "s" .reversed))).2

/-- Those among them which come up to the number three on the way down. -/
def threeHead : Session Int :=
  (threeReversed.step [] (.bind "v" (.view "d" (.head ⟨3, .inclusive⟩)))).2

theorem threeNumbers_reachable : threeNumbers.Reachable :=
  .next .initial (c := .bind "s" (.ofElements [1, 3, 5])) trivial []

theorem threeReversed_reachable : threeReversed.Reachable :=
  threeNumbers_reachable.next (c := .bind "d" (.view "s" .reversed)) trivial []

theorem threeHead_reachable : threeHead.Reachable :=
  threeReversed_reachable.next (c := .bind "v" (.view "d" (.head ⟨3, .inclusive⟩))) trivial []

theorem scan_of_obtained_reversed_head :
    ∃ (b : Source Int) (s : Session Int) (v : View Int) (t : Traversal Int),
      Obtained b s v [.reversed, .head ⟨3, .inclusive⟩] ∧ v.scan s.registry .ascending = .ok t ∧
        t.Yields s.registry.contents [⟨5, 1⟩, ⟨4, 1⟩, ⟨3, 1⟩] := by
  let b : Source Int := ⟨0, 0, ⟨0, .natural, false⟩, .indexed⟩
  let d : View Int := .descending (some 1) .weak (.source b)
  let v : View Int := .descending (some 3) .strong (.range (some 2) b (.downTo ⟨3, .inclusive⟩))
  have hs : threeNumbers.table.find? "s" = some (.bag (.source b)) := rfl
  have hd : threeReversed.table.find? "d" = some (.bag d) := rfl
  have hv : threeHead.table.find? "v" = some (.bag v) := rfl
  have hroot : Obtained b threeNumbers (.source b) [] := .root threeNumbers_reachable hs
  have hreversed : Obtained b threeReversed d [.reversed] := .step hroot hs rfl hd
  have hhead : Obtained b threeHead v [.reversed, .head ⟨3, .inclusive⟩] :=
    .step hreversed hd rfl hv
  have hlater := hhead.later (c := .change "s" (.insert 4)) trivial []
  obtain ⟨t, hscan, hyields⟩ := scan_of_obtained hlater (fun n f h => by simp [v] at h) .ascending
  exact ⟨b, _, v, t, hlater, hscan, hyields⟩

end Session

end OrderedBag
